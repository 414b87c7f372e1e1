import PnmCompaction.Cache.Ownership
import PnmCompaction.Lib.Exec

/-!
# What each entry point changes

Every request, snoop, send and response is a `Change` of the state: one MSHR at
most is touched, and the packets it ends up with come from itself, from the
packet that arrived and from fresh copies.
-/

namespace PnmCompaction.Cache

open PnmCompaction.Lib.Checked PnmCompaction.Lib.Exec PnmCompaction.Lib.Ledger

variable {c : Params} {e : Environment} {resp : Packet}
variable {extra extra₁ : Multiset PacketId} {served : Prop} {old new rest : List Mshr}
variable {s s₁ s' : State} {pkt : PacketId}

/-- Before the MSHRs are looked at, packets arrive, are copied or delivered. -/
structure Shift (extra extra₁ : Multiset PacketId) (s s₁ : State) : Prop where
  mshrs : s₁.mshrs = s.mshrs
  nextMshr : s₁.nextMshr = s.nextMshr
  writes : s₁.writes = s.writes
  outstanding : s₁.outstanding = s.outstanding
  next_le : s.next ≤ s₁.next
  heap : ∀ i, i < s.next → i ∉ extra → s₁.heap i = s.heap i
  extra_le : extra₁ ≤ extra + Multiset.Ico s.next s₁.next
  delivered_le : (s₁.delivered : Multiset PacketId) + extra₁ ≤
    s.delivered + extra + Multiset.Ico s.next s₁.next

theorem Shift.held (sh : Shift extra extra₁ s s₁) : s₁.held = s.held := by
  rw [State.held, State.held, sh.mshrs, sh.writes]

theorem Shift.below (sh : Shift extra extra₁ s s₁) (hx : Below (s.held + extra) s.next) :
    Below (s₁.held + extra₁) s₁.next := by
  refine hx.step sh.next_le ?_
  rw [sh.held, add_assoc]
  exact add_le_add_right sh.extra_le _

theorem heap_of_below (hx : Below (s.held + extra) s.next)
    (hheap : ∀ i, i < s.next → i ∉ extra → s₁.heap i = s.heap i) {m : Mshr} (hm : m ∈ s.mshrs)
    {i : PacketId} (hi : i ∈ m.pkts) : s₁.heap i = s.heap i := by
  have hin : i ∈ s.held := Multiset.mem_add.mpr (Or.inr (mem_mshrPkts hm hi))
  refine hheap i (hx.2 i (Multiset.mem_add.mpr (Or.inl hin))) fun he => ?_
  exact Multiset.disjoint_left.mp (Multiset.nodup_add.mp hx.1).2.2 hin he

theorem waits_congr {h h' : Heap} {out : List ℕ} {m : Mshr} (hh : ∀ i ∈ m.pkts, h' i = h i)
    (hw : Waits h out m) : Waits h' out m := by
  intro hin
  refine (hw hin).imp_right fun hl => Eq.trans ?_ hl
  refine hasLockedRMWReadTarget_congr rfl fun t ht => ?_
  rw [hh _ (Mshr.head_mem_pkts ht)]
  exact SameLock.refl _

theorem Replaces.congr {n : ℕ} (r : Replaces s₁ old new n) (hm : s₁.mshrs = s.mshrs)
    (hn : s₁.nextMshr = s.nextMshr) : Replaces s old new n := by
  cases r with
  | same => exact hn ▸ .same
  | set m m' id line unc => exact hn ▸ .set m m' id line unc
  | drop m => exact hn ▸ .drop m
  | add m id unmatched =>
    rw [hn] at id ⊢
    exact .add m id (hm ▸ unmatched)

theorem Change.shift (ch : Change extra₁ served old new rest s₁ s')
    (sh : Shift extra extra₁ s s₁) (hx : Below (s.held + extra) s.next) :
    Change extra served old new rest s s' := by
  have hbefore : s.mshrs.Perm (old ++ rest) := sh.mshrs ▸ ch.before
  refine ⟨hbefore, ch.after, ?_, Nat.le_trans sh.next_le ch.next_le, ?_, ?_, ?_, ?_, ?_⟩
  · exact ch.replaces.congr sh.mshrs sh.nextMshr
  · intro i hi hex hw hold
    rw [ch.heap i (Nat.lt_of_lt_of_le hi sh.next_le) ?_ (sh.writes ▸ hw) hold, sh.heap i hi hex]
    intro he
    rcases Multiset.mem_add.mp (Multiset.mem_of_le sh.extra_le he) with he | he
    · exact hex he
    · exact Nat.not_lt.mpr (Multiset.mem_Ico.mp he).1 hi
  · refine le_trans ch.held ?_
    rw [sh.writes, ← Multiset.Ico_add_Ico_eq_Ico sh.next_le ch.next_le, ← add_assoc]
    refine add_le_add_left ?_ _
    rw [add_assoc _ extra]
    exact add_le_add_right sh.extra_le _
  · intro hs
    refine le_trans (ch.delivered hs) ?_
    rw [sh.writes, ← Multiset.Ico_add_Ico_eq_Ico sh.next_le ch.next_le]
    generalize (s.writes : Multiset PacketId) + mshrPkts old = w
    generalize Multiset.Ico s₁.next s'.next = later
    calc (s₁.delivered : Multiset PacketId) + w + extra₁ + later
        = s₁.delivered + extra₁ + (w + later) := by abel
      _ ≤ s.delivered + extra + Multiset.Ico s.next s₁.next + (w + later) :=
          add_le_add_left sh.delivered_le _
      _ = s.delivered + w + extra + (Multiset.Ico s.next s₁.next + later) := by abel
  · exact fun id hid => ch.outstanding id (sh.outstanding ▸ hid)
  · intro hw
    refine ch.waits fun m hm => sh.outstanding ▸ waits_congr ?_ (hw m hm)
    intro i hi
    exact heap_of_below hx sh.heap (hbefore.mem_iff.mpr (List.mem_append_left _ hm)) hi

theorem Change.mono (ch : Change extra served old new rest s s') (hle : extra ≤ extra₁) :
    Change extra₁ served old new rest s s' := by
  refine ⟨ch.before, ch.after, ch.replaces, ch.next_le, ?_, le_trans ch.held ?_,
    fun hs => le_trans (ch.delivered hs) ?_, ch.outstanding, ch.waits⟩
  · exact fun i hi hx => ch.heap i hi fun he => hx (Multiset.mem_of_le hle he)
  · exact add_le_add_left (add_le_add_right hle _) _
  · exact add_le_add_left (add_le_add_right hle _) _

theorem Change.imp {served' : Prop} (ch : Change extra served old new rest s s')
    (h : served' → served) : Change extra served' old new rest s s' :=
  ⟨ch.before, ch.after, ch.replaces, ch.next_le, ch.heap, ch.held, fun hs => ch.delivered (h hs),
    ch.outstanding, ch.waits⟩

theorem Change.same (hm : s'.mshrs = s.mshrs) (hnm : s'.nextMshr = s.nextMshr)
    (hn : s'.next = s.next) (hh : s'.heap = s.heap) (hw : s'.writes = s.writes)
    (hd : s'.delivered = s.delivered) (ho : s'.outstanding = s.outstanding) :
    Change 0 served [] [] s.mshrs s s' := by
  refine ⟨.refl _, by rw [hm]; exact .refl _, hnm ▸ .same, Nat.le_of_eq hn.symm,
    fun i _ _ _ _ => by rw [hh], ?_, fun _ => ?_, fun id hid _ => ho ▸ hid,
    fun _ _ h => absurd h List.not_mem_nil⟩
  · rw [hw, mshrPkts_nil, add_zero, add_zero]
    exact Multiset.le_add_right _ _
  · rw [hw, hd, mshrPkts_nil, add_zero, add_zero]
    exact Multiset.le_add_right _ _

theorem Change.refl (s : State) : Change 0 served [] [] s.mshrs s s :=
  Change.same rfl rfl rfl rfl rfl rfl rfl

/-! ## Requests -/

theorem Change.deliver (ch : Change 0 served old new rest s s₁)
    (hx : Below (s.held + {pkt}) s.next) (hd : Cache.deliver s₁ pkt = .ok s') :
    Change {pkt} served old new rest s s' := by
  simp only [Cache.deliver, bind_ok_iff, pure_ok_iff] at hd
  obtain ⟨q, _, rfl⟩ := hd
  have hlt : pkt < s.next :=
    hx.2 pkt (Multiset.mem_add.mpr (Or.inr (Multiset.mem_singleton_self _)))
  have hfree : pkt ∉ s.held := fun hin => Multiset.disjoint_left.mp
    (Multiset.nodup_add.mp hx.1).2.2 hin (Multiset.mem_singleton_self _)
  refine ⟨ch.before, ch.after, ch.replaces, ch.next_le, ?_, ?_, ?_, ch.outstanding, ?_⟩
  · intro i hi hne hw hold
    rw [Multiset.mem_singleton] at hne
    exact (Function.update_of_ne hne _ _).trans (ch.heap i hi (Multiset.notMem_zero i) hw hold)
  · refine le_trans ch.held (add_le_add_left ?_ _)
    exact add_le_add_right (Multiset.zero_le _) _
  · intro hs
    have hdel := ch.delivered hs
    rw [add_zero] at hdel
    calc ((s₁.delivered ++ [pkt] : List PacketId) : Multiset PacketId) + (s₁.writes + mshrPkts new)
        = s₁.delivered + (s₁.writes + mshrPkts new) + {pkt} := by
          rw [← Multiset.coe_add, Multiset.coe_singleton]
          abel
      _ ≤ s.delivered + (s.writes + mshrPkts old) + Multiset.Ico s.next s₁.next + {pkt} :=
          add_le_add_left hdel _
      _ = s.delivered + (s.writes + mshrPkts old) + {pkt} + Multiset.Ico s.next s₁.next := by abel
  · intro hw m hm
    refine waits_congr (fun i hi => Function.update_of_ne ?_ _ _) (ch.waits hw m hm)
    rintro rfl
    -- the packet in flight is with no MSHR
    have hin := Multiset.mem_of_le ch.held (Multiset.mem_add.mpr (Or.inr (mem_mshrPkts hm hi)))
    rw [add_zero] at hin
    rcases Multiset.mem_add.mp hin with hin | hin
    · refine hfree ?_
      rw [ch.held_eq]
      exact Multiset.mem_add.mpr (Or.inl hin)
    · exact Nat.not_lt.mpr (Multiset.mem_Ico.mp hin).1 hlt

@[simp] theorem allocate_pkts (id blkAddr blkSize : ℕ) (h : Heap) (a : Bool) :
    (Mshr.allocate id blkAddr blkSize h pkt a).pkts = [pkt] := by
  simp only [Mshr.pkts, Mshr.allocate, TargetList.add_list, TargetList.init, List.nil_append,
    List.append_nil, List.map_cons, List.map_nil]

theorem allocateMissBuffer_change (t : Tags) (hf : (s.heap pkt).req.isUncacheable = false →
      findMatch s.mshrs ((s.heap pkt).line c.blkSize) = none) :
    ∃ m, Change {pkt} served [] [m] s.mshrs s
      (allocateMissBuffer c { s with tags := t } pkt) := by
  refine ⟨_, .refl _, List.perm_append_comm, .add _ rfl hf, Nat.le_refl _, fun _ _ _ _ _ => rfl,
    ?_, fun _ => ?_, fun id hid _ => hid, ?_⟩
  · simp only [mshrPkts_cons, allocate_pkts, mshrPkts_nil, add_zero]
    exact Multiset.le_add_right _ _
  · simp only [mshrPkts_cons, allocate_pkts, mshrPkts_nil, add_zero, ← add_assoc]
    exact Multiset.le_add_right _ _
  · intro _ m hm hin
    rw [List.mem_singleton.mp hm] at hin
    cases hin

theorem markInService_ok {m m' : Mshr} {b : Bool} (h : m.markInService b = .ok m') :
    m'.id = m.id ∧ m'.line = m.line ∧ m'.isUncacheable = m.isUncacheable ∧
      m'.targets = m.targets ∧ m'.deferredTargets = m.deferredTargets := by
  simp only [Mshr.markInService, bind_ok_iff, ensure_ok_iff, exists_const, pure_ok_iff] at h
  obtain ⟨_, rfl⟩ := h
  exact ⟨rfl, rfl, rfl, rfl, rfl⟩

theorem lockLine_change (hc : (s.heap pkt).cmd = .lockedRMWReadReq)
    (hr : lockLine c s pkt = .ok s') : ∃ m, Change 0 served [] [m] s.mshrs s s' := by
  simp only [lockLine, bind_ok_iff, ensure_ok_iff, exists_const] at hr
  obtain ⟨hf, m, hm, hr⟩ := hr
  obtain ⟨e1, e2, e3, e4, e5⟩ := markInService_ok hm
  have hpk : m.pkts = [s.next] := by
    rw [Mshr.pkts, e4, e5]
    exact allocate_pkts _ _ _ _ _
  split at hr
  · cases hr
  · cases hr
    refine ⟨m, .refl _, List.perm_append_comm, .add m e1 ?_, Nat.le_succ _, ?_, ?_, fun _ => ?_,
      fun id hid _ => hid, ?_⟩
    · intro _
      rw [e2]
      refine Eq.trans (congrArg _ ?_) hf
      simp only [Mshr.line, Mshr.allocate, Function.update_self, Mshr.clearFlags, Packet.line]
    · intro i hi _ _ _
      exact Function.update_of_ne (Nat.ne_of_lt hi) _ _
    · simp only [mshrPkts_cons, hpk, mshrPkts_nil, add_zero, Ico_succ]
      exact le_refl _
    · simp only [mshrPkts_cons, hpk, mshrPkts_nil, add_zero, Ico_succ, ← add_assoc]
      exact le_refl _
    · intro _ x hx hin
      rw [List.mem_singleton.mp hx]
      right
      simp only [Mshr.hasLockedRMWReadTarget, e4, Mshr.allocate, TargetList.add_list,
        TargetList.init, List.nil_append, Function.update_self, Mshr.clearFlags, hc,
        beq_self_eq_true]

theorem findMatch_mem {l : List Mshr} {ln : Line} {m : Mshr} (h : findMatch l ln = some m) :
    m ∈ l ∧ m.isUncacheable = false ∧ m.line = ln := by
  have hp := List.find?_some h
  simp only [Bool.and_eq_true, Bool.not_eq_true', beq_iff_eq] at hp
  exact ⟨List.mem_of_find?_eq_some h, hp⟩

/-- The response that the write half of a locked access makes up. -/
def lockedWriteResp (p : Packet) : Packet :=
  { Mshr.clearFlags p with cmd := .lockedRMWWriteResp, data := [] }

/-- The condition on the made-up response of a locked write. -/
def UnlockServed (c : Params) (e : Environment) (s : State) (p : Packet) : Prop :=
  match findMatch s.mshrs (p.line c.blkSize) with
  | none => True
  | some m => RespServed c e s m (lockedWriteResp p)

instance (c : Params) (e : Environment) (s : State) (p : Packet) :
    Decidable (UnlockServed c e s p) := by
  unfold UnlockServed
  split <;> infer_instance

theorem unlockLine_ok (hr : unlockLine c e s pkt = .ok s') :
    ∃ m, findMatch s.mshrs ((s.heap pkt).line c.blkSize) = some m ∧
      recvMSHRResp c e s m (lockedWriteResp (s.heap pkt)) = .ok s' := by
  simp only [unlockLine, bind_ok_iff, ensure_ok_iff, exists_const] at hr
  obtain ⟨_, hr⟩ := hr
  split at hr
  · cases hr
  · next m hm => exact ⟨m, hm, hr⟩

theorem unlockLine_change (ho : Owned s) (hr : unlockLine c e s pkt = .ok s') :
    ∃ old new rest, Change 0 (UnlockServed c e s (s.heap pkt)) old new rest s s' := by
  obtain ⟨m, hm, hr⟩ := unlockLine_ok hr
  obtain ⟨new, rest, ch⟩ := recvMSHRResp_change s.outstanding ho (findMatch_mem hm).1
    (fun _ hid _ => hid) hr
  have hs : UnlockServed c e s (s.heap pkt) =
      RespServed c e s m (lockedWriteResp (s.heap pkt)) := by
    simp only [UnlockServed, hm]
  exact ⟨[m], new, rest, hs ▸ ch⟩

theorem lockedRMW_request {cmd : MemCmd} (hl : cmd.isLockedRMW = true)
    (hreq : cmd.isRequest = true) :
    cmd = if cmd.isRead then .lockedRMWReadReq else .lockedRMWWriteReq := by
  revert hl hreq
  cases cmd <;> decide

/-- A hit locks the line, unlocks it, or leaves the MSHRs alone. -/
theorem handleTimingReqHit_change (ho : Owned s) (hx : Below (s.held + {pkt}) s.next)
    (hreq : (s.heap pkt).isRequest = true) (hr : handleTimingReqHit c e s pkt = .ok s') :
    ∃ old new rest, Change {pkt} ((s.heap pkt).cmd = .lockedRMWWriteReq →
      UnlockServed c e s (s.heap pkt)) old new rest s s' := by
  simp only [handleTimingReqHit, bind_ok_iff, ensure_ok_iff, exists_const] at hr
  obtain ⟨_, s₁, h₁, h₂⟩ := hr
  have locked : ∃ old new rest, Change 0 ((s.heap pkt).cmd = .lockedRMWWriteReq →
      UnlockServed c e s (s.heap pkt)) old new rest s s₁ := by
    split at h₁
    · next hl =>
      split at h₁
      · next hread =>
        have hc := lockedRMW_request hl hreq
        rw [if_pos hread] at hc
        obtain ⟨m, ch⟩ := lockLine_change hc h₁
        exact ⟨[], [m], s.mshrs, ch⟩
      · next hread =>
        have hc := lockedRMW_request hl hreq
        rw [if_neg hread] at hc
        obtain ⟨old, new, rest, ch⟩ := unlockLine_change ho h₁
        exact ⟨old, new, rest, ch.imp fun h => h hc⟩
    · cases h₁
      exact ⟨[], [], s.mshrs, Change.refl s⟩
  obtain ⟨old, new, rest, ch⟩ := locked
  refine ⟨old, new, rest, ?_⟩
  split at h₂
  · exact ch.deliver hx h₂
  · cases h₂
    exact ch.mono (Multiset.zero_le _)

theorem Mshr.allocateTarget_pkts {m m' : Mshr} {h h' : Heap} {a : Bool}
    (hr : m.allocateTarget h pkt a = .ok (h', m')) :
    (m'.pkts : Multiset PacketId) = m.pkts + {pkt} := by
  obtain ⟨_, _, _, first, rest, hl, ⟨ht, hd⟩ | ⟨ht, hd⟩⟩ := Mshr.allocateTarget_spec hr
  · rw [coe_pkts, coe_pkts, ht, hd, hl, pktsOf_append, pktsOf_cons _ [], pktsOf_nil]
    abel
  · rw [coe_pkts, coe_pkts, ht, hd, hl, pktsOf_append, pktsOf_cons _ [], pktsOf_nil]
    abel

theorem baseTimingReqMiss_change (ho : Owned s) (hr : baseTimingReqMiss c s pkt = .ok s') :
    ∃ old new rest, Change {pkt} served old new rest s s' := by
  unfold baseTimingReqMiss at hr
  simp only at hr
  have still : Change {pkt} served [] [] s.mshrs s s := (Change.refl s).mono (Multiset.zero_le _)
  split at hr
  · next m hf =>
    obtain ⟨hm, _, _⟩ := findMatch_mem hf
    simp only [bind_ok_iff, ensure_ok_iff, exists_const] at hr
    obtain ⟨_, hr⟩ := hr
    split at hr
    · cases hr
      exact ⟨[], [], s.mshrs, still⟩
    · simp only [bind_ok_iff, pure_ok_iff] at hr
      obtain ⟨⟨h, m'⟩, ha, rfl⟩ := hr
      have hpk := Mshr.allocateTarget_pkts ha
      obtain ⟨en, hlocks, hheap, first, ts, hl, hlists⟩ := Mshr.allocateTarget_spec ha
      obtain ⟨rest, hbefore, hset, _⟩ := ho.split hm
      refine ⟨[m], [m'], rest, hbefore, hset m' en.id, .set m m' en.id
        (congrArg₂ Line.mk en.blkAddr en.isSecure) en.isUncacheable, Nat.le_refl _, ?_, ?_, ?_,
        fun id hid _ => hid, ?_⟩
      · intro i _ hne _ _
        exact hheap i fun he => hne (he ▸ Multiset.mem_singleton_self _)
      · simp only [mshrPkts_cons, mshrPkts_nil, add_zero, hpk, ← add_assoc]
        exact Multiset.le_add_right _ _
      · intro _
        simp only [mshrPkts_cons, mshrPkts_nil, add_zero, hpk, ← add_assoc]
        exact Multiset.le_add_right _ _
      · intro hw x hx hin
        rw [List.mem_singleton.mp hx] at hin ⊢
        have hfirst : m'.targets.list.head? = m.targets.list.head? := by
          rcases hlists with ⟨ht, _⟩ | ⟨ht, _⟩ <;>
            simp only [ht, hl, List.cons_append, List.head?_cons]
        rcases hw m List.mem_cons_self (en.inService ▸ hin) with ho | ho
        · exact Or.inl (en.id ▸ ho)
        · exact Or.inr ((hasLockedRMWReadTarget_congr hfirst fun t _ => hlocks t.pkt).trans ho)
  · next hf =>
    split at hr
    · cases hr
      exact ⟨[], [], s.mshrs, still⟩
    · split at hr
      · simp only [bind_ok_iff, ensure_ok_iff, exists_const, pure_ok_iff] at hr
        obtain ⟨_, rfl⟩ := hr
        obtain ⟨m, ch⟩ := allocateMissBuffer_change _ fun _ => hf
        exact ⟨[], [m], s.mshrs, ch⟩
      · cases hr
        obtain ⟨m, ch⟩ := allocateMissBuffer_change s.tags fun _ => hf
        exact ⟨[], [m], s.mshrs, ch⟩

theorem Shift.owned (sh : Shift extra extra₁ s s₁) (hx : Below (s.held + extra) s.next)
    (ho : Owned s) : Owned s₁ := by
  refine ⟨sh.mshrs ▸ ho.ids, ?_, sh.mshrs ▸ ho.lines, ?_, ?_⟩
  · rw [sh.mshrs, sh.nextMshr]
    exact ho.idLt
  · exact (sh.below hx).le (Multiset.le_add_right _ _)
  · intro m hm
    rw [sh.mshrs] at hm
    exact sh.outstanding ▸ waits_congr (fun i hi => heap_of_below hx sh.heap hm hi) (ho.waits m hm)

theorem uncacheableMiss_change (hu : (s.heap pkt).req.isUncacheable = true)
    (hr : uncacheableMiss c s pkt = .ok s') :
    ∃ new, Change {pkt} served [] new s.mshrs s s' := by
  simp only [uncacheableMiss, bind_ok_iff, ensure_ok_iff, exists_const] at hr
  obtain ⟨_, hr⟩ := hr
  split at hr
  · cases hr
    refine ⟨[], .refl _, .refl _, .same, Nat.le_refl _, fun _ _ _ _ _ => rfl, ?_, fun _ => ?_,
      fun id hid _ => hid, fun _ _ h => absurd h List.not_mem_nil⟩
    · simp only [← Multiset.coe_add, Multiset.coe_singleton, mshrPkts_nil, add_zero]
      exact Multiset.le_add_right _ _
    · simp only [← Multiset.coe_add, Multiset.coe_singleton, mshrPkts_nil, add_zero, ← add_assoc]
      exact Multiset.le_add_right _ _
  · simp only [bind_ok_iff, ensure_ok_iff, exists_const, pure_ok_iff] at hr
    obtain ⟨_, rfl⟩ := hr
    obtain ⟨m, ch⟩ := allocateMissBuffer_change s.tags fun h => absurd (h.symm.trans hu) (by decide)
    exact ⟨[m], ch⟩

/-- The packet in flight is delivered and a copy of it takes its place. -/
theorem Shift.copy (q p : Packet) : Shift {pkt} {s.next} s { s with
    heap := Function.update (Function.update s.heap pkt q) s.next p
    next := s.next + 1
    delivered := s.delivered ++ [pkt] } := by
  refine ⟨rfl, rfl, rfl, rfl, Nat.le_succ _, ?_, ?_, ?_⟩
  · intro i hi hne
    rw [Multiset.mem_singleton] at hne
    exact (Function.update_of_ne (Nat.ne_of_lt hi) _ _).trans (Function.update_of_ne hne _ _)
  · rw [Ico_succ]
    exact Multiset.le_add_left _ _
  · rw [Ico_succ, ← Multiset.coe_add, Multiset.coe_singleton]

theorem softPrefetchMiss_change (ho : Owned s) (hx : Below (s.held + {pkt}) s.next)
    (hr : softPrefetchMiss c s pkt = .ok s') :
    ∃ old new rest, Change {pkt} served old new rest s s' := by
  simp only [softPrefetchMiss, bind_ok_iff, ensure_ok_iff, exists_const] at hr
  obtain ⟨_, s₁, hd, hr⟩ := hr
  split at hr
  · cases hr
    exact ⟨[], [], s.mshrs, (Change.refl s).deliver hx hd⟩
  · -- the copy goes on in place of the packet that has been acknowledged
    simp only [Cache.deliver, bind_ok_iff, pure_ok_iff] at hd
    obtain ⟨q, _, rfl⟩ := hd
    have sh : Shift {pkt} {s.next} s _ := Shift.copy q (Mshr.clearFlags (s.heap pkt))
    obtain ⟨old, new, rest, ch⟩ := baseTimingReqMiss_change (sh.owned hx ho) hr
    exact ⟨old, new, rest, ch.shift sh hx⟩

theorem handleTimingReqMiss_change (ho : Owned s) (hx : Below (s.held + {pkt}) s.next)
    (hr : handleTimingReqMiss c s pkt = .ok s') :
    ∃ old new rest, Change {pkt} served old new rest s s' := by
  simp only [handleTimingReqMiss, bind_ok_iff, ensure_ok_iff, exists_const] at hr
  obtain ⟨_, hr⟩ := hr
  split at hr
  · next hu =>
    obtain ⟨new, ch⟩ := uncacheableMiss_change hu hr
    exact ⟨[], new, s.mshrs, ch⟩
  · split at hr
    · exact softPrefetchMiss_change ho hx hr
    · exact baseTimingReqMiss_change ho hr

theorem baseAccess_spec {mshrs : List Mshr} {h : Heap} {tags : Tags} {p : Packet}
    {a : Bool × Packet × Tags} (hr : baseAccess c e mshrs h tags p = .ok a) :
    p.isRequest = true ∧ Packet.SameHeader p a.2.1 := by
  simp only [baseAccess, bind_ok_iff, ensure_ok_iff, exists_const] at hr
  obtain ⟨hreq, _, hr⟩ := hr
  refine ⟨hreq, ?_⟩
  split at hr
  · cases hr
    exact Packet.SameHeader.refl p
  split at hr
  · cases hr
    exact Packet.SameHeader.refl p
  split at hr
  · simp only [bind_ok_iff, ensure_ok_iff, exists_const] at hr
    obtain ⟨_, hr⟩ := hr
    split at hr
    · cases hr
      exact Packet.SameHeader.refl p
    · simp only [bind_ok_iff, pure_ok_iff] at hr
      obtain ⟨_, _, rfl⟩ := hr
      exact Packet.SameHeader.refl p
  split at hr
  · cases hr
    exact Packet.SameHeader.refl p
  split at hr
  · simp only [bind_ok_iff, ensure_ok_iff, exists_const] at hr
    obtain ⟨_, hr⟩ := hr
    split at hr
    · cases hr
      exact Packet.SameHeader.refl p
    · simp only [bind_ok_iff, pure_ok_iff] at hr
      obtain ⟨_, _, rfl⟩ := hr
      exact Packet.SameHeader.refl p
  split at hr
  · next b _ =>
    generalize (if p.cmd.needsWritable = true then b.isWritable else b.isReadable) = ok at hr
    cases ok with
    | true =>
      simp only [if_true, bind_ok_iff, pure_ok_iff] at hr
      obtain ⟨⟨q, b'⟩, hq, rfl⟩ := hr
      exact (satisfyRequest_spec hq).header
    | false =>
      cases hr
      exact Packet.SameHeader.refl p
  · cases hr
    exact Packet.SameHeader.refl p

theorem access_spec {mshrs : List Mshr} {h : Heap} {tags : Tags} {p : Packet}
    {a : Bool × Packet × Tags} (hr : access c e mshrs h tags p = .ok a) :
    p.isRequest = true ∧ Packet.SameHeader p a.2.1 := by
  unfold access at hr
  split at hr
  · simp only [bind_ok_iff, ensure_ok_iff, exists_const, pure_ok_iff] at hr
    obtain ⟨hreq, _, _, _, rfl⟩ := hr
    exact ⟨hreq, Packet.SameHeader.refl p⟩
  · exact baseAccess_spec hr

/-- The condition on a request: it matters for a locked write that hits. -/
def ReqServed (c : Params) (e : Environment) (s : State) (pkt : PacketId) : Prop :=
  match restoreLocked c s.tags (s.heap pkt) with
  | .error _ => True
  | .ok r =>
    match access c e s.mshrs s.heap r.2 r.1 with
    | .error _ => True
    | .ok a => a.1 = true → a.2.1.cmd = .lockedRMWWriteReq → UnlockServed c e
        { s with heap := Function.update s.heap pkt a.2.1, tags := a.2.2 } a.2.1

instance (c : Params) (e : Environment) (s : State) (pkt : PacketId) :
    Decidable (ReqServed c e s pkt) := by
  unfold ReqServed
  split
  · infer_instance
  · split <;> infer_instance

theorem Shift.tags (q : Packet) (t : Tags) : Shift {pkt} {pkt} s { s with
    heap := Function.update s.heap pkt q, tags := t } := by
  refine ⟨rfl, rfl, rfl, rfl, Nat.le_refl _, ?_, Multiset.le_add_right _ _,
    Multiset.le_add_right _ _⟩
  intro i _ hne
  rw [Multiset.mem_singleton] at hne
  exact Function.update_of_ne hne _ _

theorem baseTimingReq_change (ho : Owned s) (hx : Below (s.held + {pkt}) s.next)
    (hr : baseTimingReq c e s pkt = .ok s') :
    ∃ old new rest, Change {pkt} (ReqServed c e s pkt) old new rest s s' := by
  simp only [baseTimingReq, bind_ok_iff] at hr
  obtain ⟨r, hrest, a, ha, hr⟩ := hr
  have sh : Shift {pkt} {pkt} s _ := Shift.tags a.2.1 a.2.2
  have hserved : ReqServed c e s pkt = (a.1 = true → a.2.1.cmd = .lockedRMWWriteReq →
      UnlockServed c e { s with heap := Function.update s.heap pkt a.2.1, tags := a.2.2 }
        a.2.1) := by
    simp only [ReqServed, hrest, ha]
  have hpkt : (Function.update s.heap pkt a.2.1) pkt = a.2.1 := Function.update_self _ _ _
  split at hr
  · next hit =>
    have hreq : ((Function.update s.heap pkt a.2.1) pkt).isRequest = true := by
      rw [hpkt]
      obtain ⟨h₁, h₂⟩ := access_spec ha
      simpa only [Packet.isRequest, h₂.cmd] using h₁
    obtain ⟨old, new, rest, ch⟩ := handleTimingReqHit_change (sh.owned hx ho) (sh.below hx) hreq hr
    dsimp only at ch
    rw [hpkt] at ch
    refine ⟨old, new, rest, (ch.shift sh hx).imp fun h => ?_⟩
    exact (hserved ▸ h) hit
  · obtain ⟨old, new, rest, ch⟩ := handleTimingReqMiss_change (sh.owned hx ho) (sh.below hx) hr
    exact ⟨old, new, rest, ch.shift sh hx⟩

def State.arrive (s : State) (p : Packet) : State :=
  { s with heap := Function.update s.heap s.next p, next := s.next + 1 }

theorem Shift.arrive (p : Packet) : Shift 0 {s.next} s (s.arrive p) := by
  refine ⟨rfl, rfl, rfl, rfl, Nat.le_succ _, ?_, ?_, ?_⟩
  · intro i hi _
    exact Function.update_of_ne (Nat.ne_of_lt hi) _ _
  · rw [zero_add]
    exact le_of_eq (Ico_succ s.next).symm
  · rw [add_zero]
    exact add_le_add_right (le_of_eq (Ico_succ s.next).symm) _

theorem recvTimingReq_change {p : Packet} (ho : Owned s) (hr : recvTimingReq c e s p = .ok s') :
    ∃ old new rest, Change 0 ((promoteWholeLineWrites c p).cacheResponding = false →
      ReqServed c e (s.arrive (promoteWholeLineWrites c p)) s.next) old new rest s s' := by
  have hx : Below (s.held + 0) s.next := (add_zero s.held).symm ▸ ho.held
  have sh := Shift.arrive (s := s) (promoteWholeLineWrites c p)
  simp only [recvTimingReq] at hr
  split at hr
  · simp only [bind_ok_iff, ensure_ok_iff, exists_const, pure_ok_iff] at hr
    obtain ⟨_, rfl⟩ := hr
    exact ⟨[], [], s.mshrs, ((Change.refl _).mono (Multiset.zero_le _)).shift sh hx⟩
  · next hno =>
    obtain ⟨old, new, rest, ch⟩ := baseTimingReq_change (sh.owned hx ho) (sh.below hx) hr
    exact ⟨old, new, rest, (ch.shift sh hx).imp fun h => h (Bool.eq_false_iff.mpr hno)⟩

/-! ## Snoops, sends and the rest -/

theorem Owned.set_change (ho : Owned s) {m : Mshr} (hm : m ∈ s.mshrs) (m' : Mshr)
    (out : List ℕ) (t : Tags)
    (hid : m'.id = m.id) (hline : m'.line = m.line) (hunc : m'.isUncacheable = m.isUncacheable)
    (hpk : (m'.pkts : Multiset PacketId) ≤ m.pkts)
    (hout : ∀ id ∈ s.outstanding, id ∈ out)
    (hw : Waits s.heap s.outstanding m → Waits s.heap out m') :
    ∃ rest, Change 0 served [m] [m'] rest s
      { s with mshrs := setMshr s.mshrs m', outstanding := out, tags := t } := by
  obtain ⟨rest, hbefore, hset, _⟩ := ho.split hm
  refine ⟨rest, hbefore, hset m' hid, .set m m' hid hline hunc, Nat.le_refl _, fun _ _ _ _ _ => rfl,
    ?_, fun _ => ?_, fun id h _ => hout id h, ?_⟩
  · simp only [mshrPkts_cons, mshrPkts_nil, add_zero]
    exact le_trans (add_le_add_right hpk _) (Multiset.le_add_right _ _)
  · simp only [mshrPkts_cons, mshrPkts_nil, add_zero]
    exact le_trans (add_le_add_right (add_le_add_right hpk _) _) (Multiset.le_add_right _ _)
  · intro h x hx
    rw [List.mem_singleton.mp hx]
    exact hw (h m List.mem_cons_self)

theorem recvTimingSnoopReq_change {p : Packet} (ho : Owned s)
    (hr : recvTimingSnoopReq c e s p = .ok s') :
    ∃ old new rest, Change 0 served old new rest s s' := by
  simp only [recvTimingSnoopReq] at hr
  split at hr
  · simp only [bind_ok_iff, pure_ok_iff] at hr
    obtain ⟨_, _, rfl⟩ := hr
    exact ⟨[], [], s.mshrs, Change.same rfl rfl rfl rfl rfl rfl rfl⟩
  · next m hf =>
    obtain ⟨hm, _, _⟩ := findMatch_mem hf
    split at hr
    · cases hr
      exact ⟨[], [], s.mshrs, Change.refl s⟩
    · simp only [bind_ok_iff] at hr
      obtain ⟨r, hsn, hr⟩ := hr
      obtain ⟨en, hheap, hd, hlists⟩ := Mshr.handleSnoop_spec hsn
      obtain ⟨rest, hbefore, hset, _⟩ := ho.split hm
      have hpk : (r.mshr.pkts : Multiset PacketId) ≤
          m.pkts + Multiset.Ico s.next (s.next + 1) := by
        rw [coe_pkts, coe_pkts, hd, Ico_succ]
        rcases hlists with ⟨_, ht⟩ | ⟨_, _, ht⟩
        · rw [ht]
          exact Multiset.le_add_right _ _
        · rw [ht, pktsOf_append, pktsOf_cons, pktsOf_nil, add_zero]
          exact le_of_eq (by abel)
      have hfirst : r.mshr.targets.list.head? = m.targets.list.head? := by
        rcases hlists with ⟨_, ht⟩ | ⟨_, hne, ht⟩
        · rw [ht]
        · rw [ht, List.head?_append_of_ne_nil _ hne]
      -- the tags are the only difference between the two ends
      have build : ∀ t, Change 0 served [m] [r.mshr] rest s { s with
          heap := r.heap, next := s.next + 1, mshrs := setMshr s.mshrs r.mshr, tags := t } := by
        intro t
        refine ⟨hbefore, hset r.mshr en.id, .set m r.mshr en.id
          (congrArg₂ Line.mk en.blkAddr en.isSecure) en.isUncacheable, Nat.le_succ _, ?_, ?_,
          fun _ => ?_, fun id h _ => h, ?_⟩
        · intro i hi _ _ hno
          refine (hheap i (Nat.ne_of_lt hi)).2 fun hin => hno ?_
          exact mem_mshrPkts List.mem_cons_self hin
        · simp only [mshrPkts_cons, mshrPkts_nil, add_zero, add_assoc]
          exact add_le_add_right hpk _
        · simp only [mshrPkts_cons, mshrPkts_nil, add_zero, add_assoc]
          exact add_le_add_right (add_le_add_right hpk _) _
        · intro hw x hx hin
          rw [List.mem_singleton.mp hx] at hin ⊢
          refine (hw m List.mem_cons_self (en.inService ▸ hin)).imp (fun h => en.id ▸ h) fun h => ?_
          refine (hasLockedRMWReadTarget_congr hfirst fun t ht => (hheap t.pkt ?_).1).trans h
          exact Nat.ne_of_lt ((ho.pkts hm).2 t.pkt (Mshr.head_mem_pkts ht))
      split at hr
      · cases hr
        exact ⟨[m], [r.mshr], rest, build s.tags⟩
      · simp only [bind_ok_iff, pure_ok_iff] at hr
        obtain ⟨_, _, rfl⟩ := hr
        exact ⟨[m], [r.mshr], rest, build _⟩

theorem Owned.erase_change (ho : Owned s) {m : Mshr} (hm : m ∈ s.mshrs) :
    ∃ rest, Change 0 served [m] [] rest s { s with mshrs := eraseMshr s.mshrs m.id } := by
  obtain ⟨rest, hbefore, _, herase⟩ := ho.split hm
  refine ⟨rest, hbefore, herase, .drop m, Nat.le_refl _, fun _ _ _ _ _ => rfl, ?_, fun _ => ?_,
    fun id h _ => h, fun _ _ h => absurd h List.not_mem_nil⟩
  · simp only [mshrPkts_cons, mshrPkts_nil, add_zero]
    exact le_trans (Multiset.le_add_right _ _) (Multiset.le_add_right _ _)
  · simp only [mshrPkts_cons, mshrPkts_nil, add_zero, ← add_assoc]
    exact le_trans (Multiset.le_add_right _ _) (Multiset.le_add_right _ _)

theorem Owned.markInService_change (ho : Owned s) {m m' : Mshr} {b f : Bool} (hm : m ∈ s.mshrs)
    (t : Tags) (hs : ({ m with isForward := f } : Mshr).markInService b = .ok m') :
    ∃ rest, Change 0 served [m] [m'] rest s
      { s with mshrs := setMshr s.mshrs m', outstanding := m'.id :: s.outstanding, tags := t } := by
  obtain ⟨e1, e2, e3, e4, e5⟩ := markInService_ok hs
  have hpk : m'.pkts = m.pkts := by rw [Mshr.pkts, e4, e5, Mshr.pkts]
  exact ho.set_change hm m' (m'.id :: s.outstanding) t e1 e2 e3 (le_of_eq (congrArg _ hpk))
    (fun _ h => List.mem_cons_of_mem _ h) (fun _ _ => Or.inl List.mem_cons_self)

theorem baseSend_change {m : Mshr} {accepted : Bool} (ho : Owned s) (hm : m ∈ s.mshrs)
    (hr : baseSend c e s m accepted = .ok s') :
    ∃ old new rest, Change 0 served old new rest s s' := by
  simp only [baseSend, bind_ok_iff] at hr
  obtain ⟨t, _, miss, _, cmd, _, hr⟩ := hr
  split at hr
  · simp only [bind_ok_iff, pure_ok_iff] at hr
    obtain ⟨m', hs, rfl⟩ := hr
    obtain ⟨rest, ch⟩ := ho.markInService_change hm _ hs
    exact ⟨[m], [m'], rest, ch⟩
  · cases hr
    obtain ⟨rest, ch⟩ := ho.set_change hm { m with isForward := miss.isNone } s.outstanding
      s.tags rfl rfl rfl (le_refl _) (fun _ h => h) (fun h => h)
    exact ⟨[m], _, rest, ch⟩

theorem popTarget_pkts (m : Mshr) : (m.popTarget.pkts : Multiset PacketId) ≤ m.pkts :=
  pktsOf_sublist ((List.tail_sublist _).append (List.Sublist.refl _))

theorem sendMSHRQueuePacket_change {m : Mshr} {accepted : Bool} (ho : Owned s) (hm : m ∈ s.mshrs)
    (hin : m.inService = false) (hr : sendMSHRQueuePacket c e s m accepted = .ok s') :
    ∃ old new rest, Change 0 served old new rest s s' := by
  simp only [sendMSHRQueuePacket, bind_ok_iff] at hr
  obtain ⟨t, _, hr⟩ := hr
  split at hr
  · simp only [bind_ok_iff, ensure_ok_iff, exists_const] at hr
    obtain ⟨_, hr⟩ := hr
    have idle : ∀ m' : Mshr, m'.inService = m.inService →
        Waits s.heap s.outstanding m → Waits s.heap s.outstanding m' := by
      intro m' h _ h'
      rw [h, hin] at h'
      cases h'
    split at hr
    · simp only [bind_ok_iff, pure_ok_iff] at hr
      obtain ⟨m', hs, rfl⟩ := hr
      obtain ⟨rest, ch⟩ := ho.markInService_change (f := m.isForward) hm s.tags hs
      exact ⟨[m], [m'], rest, ch⟩
    · split at hr
      · split at hr
        · split at hr
          · next m' hp =>
            cases hr
            have hprom := Mshr.promoteDeferredTargets_some hp
            have hline : m'.line = m.line :=
              congrArg₂ Line.mk hprom.entry.blkAddr hprom.entry.isSecure
            obtain ⟨rest, ch⟩ := ho.set_change hm m' s.outstanding s.tags hprom.entry.id hline
              hprom.entry.isUncacheable
              (le_trans (le_of_eq (congrArg _ hprom.pkts)) (popTarget_pkts m)) (fun _ h => h)
              (idle m' hprom.entry.inService)
            exact ⟨[m], [m'], rest, ch⟩
          · simp only [bind_ok_iff, pure_ok_iff] at hr
            obtain ⟨_, _, rfl⟩ := hr
            obtain ⟨rest, ch⟩ := ho.erase_change hm
            exact ⟨[m], [], rest, ch⟩
        · cases hr
          obtain ⟨rest, ch⟩ := ho.set_change hm m.popTarget s.outstanding s.tags rfl rfl rfl
            (popTarget_pkts m) (fun _ h => h) (idle _ rfl)
          exact ⟨[m], _, rest, ch⟩
      · exact baseSend_change ho hm hr
  · exact baseSend_change ho hm hr

theorem recvWriteResp_change {cmd : MemCmd} (hr : recvWriteResp s pkt cmd = some s') :
    Change 0 served [] [] s.mshrs s s' := by
  unfold recvWriteResp at hr
  split at hr
  · next hc =>
    cases hr
    have hperm : (s.writes : Multiset PacketId) = {pkt} + (s.writes.erase pkt : List PacketId) :=
      Multiset.coe_eq_coe.mpr (List.perm_cons_erase hc.1)
    refine ⟨.refl _, .refl _, .same, Nat.le_refl _, ?_, ?_, fun _ => ?_, fun id h _ => h,
      fun _ _ h => absurd h List.not_mem_nil⟩
    · intro i _ _ hw _
      refine Function.update_of_ne (fun he => hw ?_) _ _
      exact he ▸ hc.1
    · simp only [mshrPkts_nil, add_zero]
      rw [hperm]
      exact le_trans (Multiset.le_add_left _ _) (Multiset.le_add_right _ _)
    · simp only [mshrPkts_nil, add_zero, ← Multiset.coe_add, Multiset.coe_singleton, add_assoc]
      rw [hperm]
      exact add_le_add_right (Multiset.le_add_right _ _) _
  · cases hr

theorem issuePrefetch_change {p : Packet} {wb : Bool} (ho : Owned s) :
    ∃ new, Change 0 served [] new s.mshrs s (issuePrefetch c s p wb) := by
  simp only [issuePrefetch]
  split
  · exact ⟨[], Change.refl s⟩
  · next hno =>
    simp only [Bool.or_eq_true, not_or, Bool.not_eq_true, Option.isSome_eq_false_iff,
      Option.isNone_iff_eq_none] at hno
    have hx : Below (s.held + 0) s.next := (add_zero s.held).symm ▸ ho.held
    have hp : (s.arrive p).heap s.next = p := Function.update_self _ _ _
    have hf : findMatch (s.arrive p).mshrs (((s.arrive p).heap s.next).line c.blkSize) = none := by
      rw [hp]
      exact hno.1.2
    obtain ⟨m, ch⟩ := allocateMissBuffer_change s.tags fun _ => hf
    exact ⟨[m], ch.shift (Shift.arrive p) hx⟩

/-! ## Steps and runs -/

/-- The condition on a step under which no packet is both delivered and kept. -/
def Served (c : Params) (s : State) : Action → Prop
  | .request p e => (promoteWholeLineWrites c p).cacheResponding = false →
      ReqServed c e (s.arrive (promoteWholeLineWrites c p)) s.next
  | .response id resp e =>
    match findMshr s id with
    | none => True
    | some m => RespServed c e s m resp
  | _ => True

instance (c : Params) (s : State) (a : Action) : Decidable (Served c s a) := by
  unfold Served
  split
  · infer_instance
  · split <;> infer_instance
  · infer_instance

theorem toOption_eq_some {ε α : Type} {x : Except ε α} {a : α} :
    x.toOption = some a ↔ x = .ok a := by
  cases x <;> simp [Except.toOption]

theorem findMshr_mem {id : ℕ} {m : Mshr} (h : findMshr s id = some m) :
    m ∈ s.mshrs ∧ m.id = id := by
  have hid := List.find?_some h
  exact ⟨List.mem_of_find?_eq_some h, of_decide_eq_true hid⟩

theorem step_change {a : Action} (ho : Owned s) (hr : step c s a = some s') :
    ∃ old new rest, Change 0 (Served c s a) old new rest s s' := by
  cases a with
  | request p e => exact recvTimingReq_change ho (toOption_eq_some.mp hr)
  | snoop p e => exact recvTimingSnoopReq_change ho (toOption_eq_some.mp hr)
  | send id accepted e =>
    obtain ⟨m, hm, hr⟩ := Option.bind_eq_some_iff.mp hr
    split at hr
    · cases hr
    · next hin =>
      exact sendMSHRQueuePacket_change ho (findMshr_mem hm).1 (Bool.eq_false_iff.mpr hin)
        (toOption_eq_some.mp hr)
  | response id resp e =>
    obtain ⟨m, hm, hr⟩ := Option.bind_eq_some_iff.mp hr
    split at hr
    · obtain ⟨hmem, rfl⟩ := findMshr_mem hm
      obtain ⟨new, rest, ch⟩ := recvMSHRResp_change (s.outstanding.erase m.id) ho hmem
        (fun id hid hne => (List.mem_erase_of_ne hne).mpr hid) (toOption_eq_some.mp hr)
      refine ⟨[m], new, rest, ch.imp fun h => ?_⟩
      simpa only [Served, hm] using h
    · cases hr
  | writeResponse pkt cmd => exact ⟨[], [], s.mshrs, recvWriteResp_change hr⟩
  | prefetch p wb =>
    simp only [step] at hr
    split at hr
    · cases hr
      obtain ⟨new, ch⟩ := issuePrefetch_change (c := c) ho
      exact ⟨[], new, s.mshrs, ch⟩
    · cases hr
  | downstream id pending =>
    obtain ⟨m, hm, rfl⟩ := Option.map_eq_some_iff.mp hr
    obtain ⟨rest, ch⟩ := ho.set_change (findMshr_mem hm).1 { m with downstreamPending := pending }
      s.outstanding s.tags rfl rfl rfl (le_refl _) (fun _ h => h) (fun h => h)
    exact ⟨[m], _, rest, ch⟩
  | memInvalidate =>
    cases hr
    exact ⟨[], [], s.mshrs, Change.same rfl rfl rfl rfl rfl rfl rfl⟩

theorem owned_init : Owned State.init :=
  ⟨List.nodup_nil, fun _ h => absurd h List.not_mem_nil, List.Pairwise.nil,
    ⟨Multiset.nodup_zero, fun _ h => absurd h (Multiset.notMem_zero _)⟩,
    fun _ h => absurd h List.not_mem_nil⟩

/-- In every state of every run the packets and MSHRs are where they belong. -/
theorem owned_of_exec {as : List Action} (hr : exec (step c) State.init as = some s) : Owned s := by
  refine exec_invariant (fun s a s' ho hstep => ?_) owned_init hr
  obtain ⟨old, new, rest, ch⟩ := step_change ho hstep
  exact ch.owned ((add_zero s.held).symm ▸ ho.held) ho

end PnmCompaction.Cache
