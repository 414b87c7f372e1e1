import PnmCompaction.Cache.Steps

/-!
# A packet is delivered once

A locked read stays in the MSHR when it is serviced. If it is serviced from the
block, a fresh packet takes its place before it is answered. The other branches
of `serviceMSHRTargets` answer it as it is: then the CPU side owns a packet that
is still a target, `promoteDeferredTargets` sees a target left, and the MSHR is
sent again for it.
-/

namespace PnmCompaction.Cache

open PnmCompaction.Lib.Checked PnmCompaction.Lib.Exec PnmCompaction.Lib.Ledger

variable {c : Params} {e : Environment} {resp : Packet} {s s' : State} {m : Mshr}

def Gone (s s' : State) (m : Mshr) : Prop :=
  ∀ m' ∈ s'.mshrs, m'.id = m.id → ∀ i ∈ m'.pkts, i ∉ s'.delivered.drop s.delivered.length

/-- One response: the delivered packets are gone exactly if a locked read among
the serviced targets was served from the block. -/
theorem recvMSHRResp_gone_iff (hm : m ∈ s.mshrs) (hnd : m.pkts.Nodup)
    (hlt : ∀ i ∈ m.pkts, i < s.next) (hr : recvMSHRResp c e s m resp = .ok s') :
    Gone s s' m ↔ RespServed c e s m resp := by
  obtain ⟨f, p, r, hp, hs, hfin, hserved, _⟩ := recvMSHRResp_ok hr
  have hpk := (promoteTargets_spec hp).pkts
  have hen := (promoteTargets_spec hp).entry
  have sv := serviceMSHRTargets_serviced (hpk ▸ hnd) (hpk ▸ hlt) hs
  obtain ⟨⟨_, _, hdel, _⟩, hcases⟩ := finishResp_spec hfin
  have hdrop : s'.delivered.drop s.delivered.length = r.scheduled := by
    rw [hdel, List.drop_left]
  unfold Gone
  rw [hdrop, hserved]
  constructor
  · intro hgone
    by_contra hno
    obtain ⟨t, ts, hfirst, hsch⟩ := sv.twice hno
    have hin : t.pkt ∈ r.mshr.pkts :=
      List.mem_map_of_mem (List.mem_append_left _ (hfirst ▸ List.mem_cons_self))
    rcases hcases with ⟨m', hmshrs, hprom, _⟩ | ⟨_, hnone⟩
    · have hid : m'.id = m.id := hprom.entry.id.trans (sv.id.trans hen.id)
      have hpk' : m'.pkts = r.mshr.pkts := hprom.pkts
      exact hgone m' (hmshrs ▸ mem_setMshr hm hid) hid t.pkt (hpk' ▸ hin) hsch
    · rw [hnone] at hin
      cases hin
  · intro hok m' hm' hid i hi hsch
    rw [finishResp_pkts hfin hm' (hid.trans (sv.id.trans hen.id).symm)] at hi
    have hb : Below (m.pkts : Multiset PacketId) s.next :=
      ⟨Multiset.coe_nodup.mpr hnd, fun i hi => hlt i (Multiset.mem_coe.mp hi)⟩
    have hone := (hb.step sv.next_le (le_trans (sv.once hok)
      (add_le_add_left (hpk ▸ pkts_unlocked_le resp p.1) _))).1
    exact Multiset.disjoint_left.mp (Multiset.nodup_add.mp hone).2.2
      (Multiset.mem_coe.mpr hsch) (Multiset.mem_coe.mpr hi)

theorem delivered_of_exec {as : List Action} (hm : Meets (step c) (Served c) State.init as)
    (hr : exec (step c) State.init as = some s) : Owned s ∧ Delivered s := by
  refine exec_invariant_of_meets (I := fun s => Owned s ∧ Delivered s) ?_ ⟨owned_init, ?_⟩ hm hr
  · rintro s a s' ⟨ho, hd⟩ hserved hstep
    obtain ⟨old, new, rest, ch⟩ := step_change ho hstep
    refine ⟨ch.owned ((add_zero s.held).symm ▸ ho.held) ho, ch.isDelivered hserved ?_⟩
    rw [add_zero]
    exact hd
  · exact ⟨Multiset.nodup_zero, fun _ h => absurd h (Multiset.notMem_zero _)⟩

/-- Every packet has been delivered at most once, and no MSHR has a target, to be
sent for or to be answered, whose packet the CPU side owns. -/
def HandedOver (s : State) : Prop :=
  s.delivered.Nodup ∧ ∀ m ∈ s.mshrs, ∀ i ∈ m.pkts, i ∉ s.delivered

theorem Delivered.handedOver (hd : Delivered s) : HandedOver s := by
  obtain ⟨hdel, _, hdis⟩ := Multiset.nodup_add.mp hd.1
  refine ⟨Multiset.coe_nodup.mp hdel, ?_⟩
  intro m hm i hi hin
  refine Multiset.disjoint_left.mp hdis (Multiset.mem_coe.mpr hin) ?_
  exact Multiset.mem_add.mpr (Or.inr (mem_mshrPkts hm hi))

/-- One response leaves no delivered packet behind exactly if a locked read of the
CPU among the targets it services is served from the block; in a run whose steps
all do so every packet is handed over once. -/
theorem packets_handed_over_when_lock_served (c : Params) :
    (∀ (e : Environment) (s s' : State) (m : Mshr) (resp : Packet), m ∈ s.mshrs → m.pkts.Nodup →
      (∀ i ∈ m.pkts, i < s.next) → recvMSHRResp c e s m resp = .ok s' →
      (Gone s s' m ↔ RespServed c e s m resp)) ∧
    (∀ (as : List Action) (s : State), exec (step c) State.init as = some s →
      Meets (step c) (Served c) State.init as → HandedOver s) :=
  ⟨fun _ _ _ _ _ hm hnd hlt hr => recvMSHRResp_gone_iff hm hnd hlt hr,
    fun _ _ hr hm => (delivered_of_exec hm hr).2.handedOver⟩

instance : Decidable (HandedOver s) :=
  inferInstanceAs (Decidable (_ ∧ _))

/-- A locked access that misses: the read half fills the line and locks it, a read
waits behind the lock, the write half lets it go. -/
theorem locked_access_handed_over :
    (∃ s s' m, exec (step Params.plain) State.init
        [.request (.plain .lockedRMWReadReq false) .quiet, .send 0 true .quiet] = some s ∧
      m ∈ s.mshrs ∧ recvMSHRResp Params.plain .quiet s m (.plain .readExResp false) = .ok s' ∧
      s'.delivered = [0] ∧ Gone s s' m) ∧
    ∃ s, exec (step Params.plain) State.init
        [.request (.plain .lockedRMWReadReq false) .quiet, .send 0 true .quiet,
          .response 0 (.plain .readExResp false) .quiet,
          .request (.plain .readReq false) .quiet,
          .request (.plain .lockedRMWWriteReq false) .quiet] = some s ∧
      s.delivered = [0, 2, 3] ∧ HandedOver s := by
  constructor
  · refine ⟨_, _, _, rfl, List.mem_cons_self, rfl, by decide +kernel, ?_⟩
    refine ((packets_handed_over_when_lock_served Params.plain).1 .quiet _ _ _
      (.plain .readExResp false) List.mem_cons_self ?_ ?_ rfl).mpr ?_
    · decide +kernel
    · decide +kernel
    · decide +kernel
  · refine ⟨_, rfl, by decide +kernel, ?_⟩
    refine (packets_handed_over_when_lock_served Params.plain).2
      [.request (.plain .lockedRMWReadReq false) .quiet, .send 0 true .quiet,
        .response 0 (.plain .readExResp false) .quiet, .request (.plain .readReq false) .quiet,
        .request (.plain .lockedRMWWriteReq false) .quiet] _ rfl ?_
    decide +kernel

/-- An uncacheable locked read is forwarded; its response brings data and no
block, so the read is answered and stays a target. -/
theorem uncacheable_locked_read_left_behind :
    ∃ s s' s'' : State,
      exec (step Params.plain) State.init
        [.request (.plain .lockedRMWReadReq true) .quiet, .send 0 true .quiet] = some s ∧
      step Params.plain s (.response 0 (.plain .lockedRMWReadResp true) .quiet) = some s' ∧
      (∃ m ∈ s.mshrs, ¬Gone s s' m) ∧ ¬HandedOver s' ∧
      step Params.plain s' (.send 0 true .quiet) = some s'' ∧ s''.outstanding = [0] := by
  refine ⟨_, _, _, rfl, rfl, ?_, ?_, rfl, ?_⟩
  · unfold Gone
    decide +kernel
  · decide +kernel
  · decide +kernel

end PnmCompaction.Cache
