import PnmCompaction.Cache.Service

/-!
# One turn of the loop, and all of them

What the turn of one target does to the heap, to the MSHR, to the block and to
the CPU side is decided by the packet of that target alone. The packets of the
targets are different objects, so the turns do not disturb each other and the
whole loop can be read off the list and the heap before it.
-/

namespace PnmCompaction.Cache

open PnmCompaction.Lib.Checked PnmCompaction.Lib.LittleEndian

/-- A target that gets a response on the CPU side. -/
def answers (h : Heap) (t : Target) : Bool :=
  decide (t.source = .fromCPU) && !(h t.pkt).cmd.isSWPrefetch &&
    ((h t.pkt).isRequest && (h t.pkt).cmd.needsResponse)

/-- A target that takes the block away when it is serviced from it. -/
def drops (h : Heap) (t : Target) : Bool :=
  match t.source with
  | .fromCPU => (h t.pkt).cmd == .invalidateReq
  | .fromSnoop => (h t.pkt).cmd.isInvalidate
  | .fromPrefetcher => false

def lockedRead (h : Heap) (t : Target) : Prop :=
  t.source = .fromCPU ∧ (h t.pkt).cmd = .lockedRMWReadReq

variable {c : Params} {o : Surroundings} {resp : Packet} {inv : Bool}

theorem useBlock_congr {m m' : Mshr} {blk blk' : Option Blk} (hm : m'.isForward = m.isForward)
    (hb : blkValid blk' = blkValid blk) : useBlock resp m' blk' = useBlock resp m blk := by
  simp only [useBlock, hm, hb]

theorem useBlock_mono {m m' : Mshr} {blk blk' : Option Blk} (hm : m'.isForward = m.isForward)
    (hb : blkValid blk' = true → blkValid blk = true) (hu : useBlock resp m blk = false) :
    useBlock resp m' blk' = false := by
  cases h : blkValid blk' with
  | false => simp only [useBlock, h, Bool.false_and]
  | true => rwa [useBlock_congr hm (h.trans (hb h).symm)]

/-- What the turn of `t` leaves, the responses apart. A locked read that is
serviced from the block leaves a fresh packet as first target. -/
structure Turn (resp : Packet) (s s' : Loop) (t : Target) : Prop where
  heap : ∀ i, i ≠ t.pkt → i < s.next → s'.heap i = s.heap i
  forward : s'.mshr.isForward = s.mshr.isForward
  useBlock : useBlock resp s'.mshr s'.blk = (useBlock resp s.mshr s.blk && !drops s.heap t)
  same : ¬(lockedRead s.heap t ∧ Cache.useBlock resp s.mshr s.blk = true) →
    s'.mshr = s.mshr ∧ s'.next = s.next
  relocked : lockedRead s.heap t → Cache.useBlock resp s.mshr s.blk = true →
    ∃ u rest, s.mshr.targets.list = u :: rest ∧ u.pkt = t.pkt ∧
      s'.mshr = { s.mshr with targets := { s.mshr.targets with
        list := { u with pkt := s.next } :: rest } } ∧
      s'.next = s.next + 1 ∧ (s'.heap s.next).cmd = .lockedRMWReadReq

theorem Turn.quiet {s s' : Loop} {t : Target}
    (heap : ∀ i, i ≠ t.pkt → s'.heap i = s.heap i) (mshr : s'.mshr = s.mshr)
    (next : s'.next = s.next)
    (ub : Cache.useBlock resp s.mshr s'.blk =
      (Cache.useBlock resp s.mshr s.blk && !drops s.heap t))
    (hl : ¬(lockedRead s.heap t ∧ Cache.useBlock resp s.mshr s.blk = true)) :
    Turn resp s s' t :=
  ⟨fun i hi _ => heap i hi, by rw [mshr], by rw [mshr]; exact ub, fun _ => ⟨mshr, next⟩,
    fun a b => absurd ⟨a, b⟩ hl⟩

theorem updateLockedRMWReadTarget_spec {m m' : Mshr} {pkt dummy : PacketId}
    (h : m.updateLockedRMWReadTarget pkt dummy = .ok m') :
    ∃ u rest, m.targets.list = u :: rest ∧ u.pkt = pkt ∧
      m' = { m with targets := { m.targets with list := { u with pkt := dummy } :: rest } } := by
  unfold Mshr.updateLockedRMWReadTarget at h
  split at h
  · cases h
  · next u rest hl =>
    simp only [bind_ok_iff, ensure_ok_iff, exists_const, pure_ok_iff] at h
    exact ⟨u, rest, hl, h.1, h.2.symm⟩

theorem softPrefetch_turn {s s' : Loop} {t : Target} (ht : t.source = .fromCPU)
    (hsw : (s.heap t.pkt).cmd.isSWPrefetch = true) (h : softPrefetch c s t = .ok s') :
    Turn resp s s' t ∧ s'.scheduled = s.scheduled := by
  have hl : ¬(lockedRead s.heap t ∧ Cache.useBlock resp s.mshr s.blk = true) := by
    rintro ⟨⟨_, hc⟩, _⟩
    rw [hc] at hsw
    cases hsw
  have hd : drops s.heap t = false := by
    simp only [drops, ht]
    revert hsw
    cases (s.heap t.pkt).cmd <;> decide
  unfold softPrefetch at h
  simp only at h
  split at h
  · split at h
    · cases h
    · next b hb =>
      simp only [bind_ok_iff, ensure_ok_iff, exists_const, pure_ok_iff] at h
      obtain ⟨b', hb', _, rfl⟩ := h
      simp only [Blk.setDirty, bind_ok_iff, ensure_ok_iff, exists_const, pure_ok_iff] at hb'
      obtain ⟨hv, rfl⟩ := hb'
      refine ⟨Turn.quiet (fun _ _ => rfl) rfl rfl ?_ hl, rfl⟩
      rw [hd, Bool.not_false, Bool.and_true]
      exact useBlock_congr rfl (by rw [hb]; exact rfl)
  · cases h
    refine ⟨Turn.quiet (fun _ _ => rfl) rfl rfl ?_ hl, rfl⟩
    rw [hd, Bool.not_false, Bool.and_true]

theorem fromBlock_turn {s s' : Loop} {t : Target} (ht : t.source = .fromCPU)
    (hn : t.pkt < s.next) (hu : useBlock resp s.mshr s.blk = true)
    (h : fromBlock c o s t = .ok s') :
    Turn resp s s' t ∧ s'.scheduled = s.scheduled ∧
      Packet.SameHeader (s.heap t.pkt) (s'.heap t.pkt) ∧ (s.heap t.pkt).isRequest = true := by
  unfold fromBlock at h
  split at h
  · cases h
  · next b hb =>
    simp only [bind_ok_iff] at h
    obtain ⟨down, _, ⟨q, b'⟩, hs, h⟩ := h
    obtain ⟨hr, hv, hh, hv'⟩ := satisfyRequest_spec hs
    have hub : ∀ b'' : Blk, b''.valid = b'.valid → ∀ m : Mshr, m.isForward = s.mshr.isForward →
        useBlock resp m (some b'') = (useBlock resp s.mshr s.blk && !drops s.heap t) := by
      intro b'' hb'' m hm
      have hdrop : (!drops s.heap t) = b''.valid := by
        rw [hb'', hv']
        simp only [drops, ht]
        cases (s.heap t.pkt).cmd <;> rfl
      rw [hu, Bool.true_and, hdrop]
      simp only [useBlock, hb, blkValid, Option.any_some, hv, Bool.true_and] at hu
      simp only [useBlock, hm, hu, blkValid, Option.any_some, Bool.and_true]
    simp only at h
    split at h
    · next hc =>
      simp only [bind_ok_iff, pure_ok_iff] at h
      obtain ⟨m, hm, rfl⟩ := h
      obtain ⟨u, rest, hl, hup, rfl⟩ := updateLockedRMWReadTarget_spec hm
      refine ⟨⟨?_, rfl, hub _ rfl _ rfl, ?_, ?_⟩, rfl, ?_, hr⟩
      · intro i hi hlt
        show Function.update (Function.update s.heap t.pkt q) s.next _ i = s.heap i
        rw [Function.update_of_ne (Nat.ne_of_lt hlt), Function.update_of_ne hi]
      · intro hno
        exact absurd ⟨⟨ht, hh.cmd.symm.trans hc⟩, hu⟩ hno
      · intro _ _
        refine ⟨u, rest, hl, hup, rfl, rfl, ?_⟩
        dsimp only
        rw [Function.update_self]
        exact hc
      · dsimp only
        rw [Function.update_of_ne (Nat.ne_of_lt hn), Function.update_self]
        exact hh
    · next hc =>
      cases h
      refine ⟨Turn.quiet ?_ rfl rfl (hub _ rfl _ rfl) ?_, rfl, ?_, hr⟩
      · intro i hi
        exact Function.update_of_ne hi _ _
      · rintro ⟨⟨_, hlk⟩, _⟩
        exact hc (hh.cmd.trans hlk)
      · dsimp only
        rw [Function.update_self]
        exact hh

theorem forwardResponse_turn {s s' : Loop} {t : Target}
    (hu : useBlock resp s.mshr s.blk = false) (h : forwardResponse resp inv s t = .ok s') :
    Turn resp s s' t ∧ s'.scheduled = s.scheduled ∧
      Packet.SameHeader (s.heap t.pkt) (s'.heap t.pkt) := by
  simp only [forwardResponse, bind_ok_iff, pure_ok_iff] at h
  obtain ⟨q, hq, r, hr, rfl⟩ := h
  have hq' : Packet.SameHeader (s.heap t.pkt) q := by
    split at hq
    · unfold forwardData at hq
      split at hq
      · split at hq
        · exact Packet.setData_spec hq
        · split at hq
          · simp only [bind_ok_iff, ensure_ok_iff, exists_const, pure_ok_iff] at hq
            obtain ⟨_, rfl⟩ := hq
            exact ⟨rfl, rfl, rfl, rfl, rfl⟩
          · cases hq
            exact Packet.SameHeader.refl _
      · simp only [bind_ok_iff, ensure_ok_iff, exists_const, pure_ok_iff] at hq
        obtain ⟨_, rfl⟩ := hq
        exact Packet.SameHeader.refl _
    · cases hq
      exact Packet.SameHeader.refl _
  have hr' : Packet.SameHeader q r := by
    split at hr
    · exact Packet.copyResponderFlags_spec hr
    · cases hr
      exact Packet.SameHeader.refl _
  refine ⟨Turn.quiet ?_ rfl rfl ?_ ?_, rfl, ?_⟩
  · intro i hi
    exact Function.update_of_ne hi _ _
  · rw [hu, Bool.false_and]
    refine useBlock_mono rfl ?_ hu
    dsimp only
    split
    · next hi => exact fun _ => (Bool.and_eq_true_iff.mp hi).2
    · exact id
  · rintro ⟨_, hu'⟩
    rw [hu] at hu'
    cases hu'
  · dsimp only
    rw [Function.update_self]
    exact hq'.trans hr'

theorem satisfyTarget_turn {s s' : Loop} {t : Target} (ht : t.source = .fromCPU)
    (hn : t.pkt < s.next) (h : satisfyTarget c o resp inv s t = .ok s') :
    Turn resp s s' t ∧ s'.scheduled = s.scheduled ∧
      Packet.SameHeader (s.heap t.pkt) (s'.heap t.pkt) := by
  unfold satisfyTarget at h
  split at h
  · next hu =>
    obtain ⟨a, b, d, _⟩ := fromBlock_turn ht hn hu h
    exact ⟨a, b, d⟩
  · next hu =>
    have hu' : useBlock resp s.mshr s.blk = false := Bool.eq_false_iff.mpr hu
    have still : Turn resp s s t := by
      refine Turn.quiet (fun _ _ => rfl) rfl rfl ?_ (fun hl => hu hl.2)
      rw [hu', Bool.false_and]
    split at h
    · simp only [bind_ok_iff, ensure_ok_iff, exists_const, pure_ok_iff] at h
      obtain ⟨_, rfl⟩ := h
      exact ⟨still, rfl, Packet.SameHeader.refl _⟩
    · split at h
      · cases h
        exact ⟨still, rfl, Packet.SameHeader.refl _⟩
      · exact forwardResponse_turn hu' h

theorem respondTo_spec {s s' : Loop} {t : Target} (h : respondTo resp inv s t = .ok s') :
    (∀ i, i ≠ t.pkt → s'.heap i = s.heap i) ∧ s'.mshr = s.mshr ∧ s'.next = s.next ∧
      s'.blk = s.blk ∧ s'.scheduled = s.scheduled ++
        if (s.heap t.pkt).isRequest && (s.heap t.pkt).cmd.needsResponse then [t.pkt] else [] := by
  unfold respondTo at h
  simp only at h
  split at h
  · next hc =>
    simp only [bind_ok_iff, pure_ok_iff] at h
    obtain ⟨q, _, rfl⟩ := h
    rw [if_pos hc]
    exact ⟨fun i hi => Function.update_of_ne hi _ _, rfl, rfl, rfl, rfl⟩
  · next hc =>
    cases h
    rw [if_neg hc, List.append_nil]
    exact ⟨fun _ _ => rfl, rfl, rfl, rfl, rfl⟩

theorem Turn.respond {s s' s'' : Loop} {t : Target} (a : Turn resp s s' t) (hn : t.pkt < s.next)
    (h : respondTo resp inv s' t = .ok s'') : Turn resp s s'' t := by
  obtain ⟨hh, hm, hx, hb, _⟩ := respondTo_spec h
  refine ⟨?_, by rw [hm, a.forward], by rw [hm, hb, a.useBlock], ?_, ?_⟩
  · intro i hi hlt
    rw [hh i hi, a.heap i hi hlt]
  · rw [hm, hx]
    exact a.same
  · intro hl hu
    obtain ⟨u, rest, e1, e2, e3, e4, e5⟩ := a.relocked hl hu
    refine ⟨u, rest, e1, e2, hm.trans e3, hx.trans e4, ?_⟩
    rw [hh s.next (Nat.ne_of_gt hn), e5]

theorem serviceCPU_turn {s s' : Loop} {t : Target} (ht : t.source = .fromCPU)
    (hn : t.pkt < s.next) (h : serviceCPU c o resp inv s t = .ok s') :
    Turn resp s s' t ∧
      s'.scheduled = s.scheduled ++ if answers s.heap t then [t.pkt] else [] := by
  unfold serviceCPU at h
  simp only at h
  split at h
  · next hsw =>
    have hp : Turn resp { s with fromCore := true } s' t ∧ s'.scheduled = s.scheduled :=
      softPrefetch_turn ht hsw h
    obtain ⟨a, hs⟩ := hp
    refine ⟨⟨a.heap, a.forward, a.useBlock, a.same, a.relocked⟩, ?_⟩
    have hno : answers s.heap t = false := by simp only [answers, hsw, Bool.not_true,
      Bool.and_false, Bool.false_and]
    rw [hs, hno]
    exact (List.append_nil _).symm
  · next hsw =>
    simp only [bind_ok_iff] at h
    obtain ⟨_, _, s₁, h₁, h₂⟩ := h
    obtain ⟨a, hs, hh⟩ := satisfyTarget_turn (s := { s with fromCore := true }) ht hn h₁
    have a' : Turn resp s s₁ t := ⟨a.heap, a.forward, a.useBlock, a.same, a.relocked⟩
    refine ⟨a'.respond hn h₂, ?_⟩
    obtain ⟨_, _, _, _, hsch⟩ := respondTo_spec h₂
    rw [hsch, hs]
    simp only [answers, ht, decide_true, Bool.eq_false_iff.mpr hsw, Bool.not_false, Bool.true_and,
      Packet.isRequest, hh.cmd]

/-- The turn of a target: whether it is answered, and what else it changes. -/
theorem serviceTarget_turn {s s' : Loop} {t : Target} (hn : t.pkt < s.next)
    (h : serviceTarget c o resp inv s t = .ok s') :
    Turn resp s s' t ∧
      s'.scheduled = s.scheduled ++ if answers s.heap t then [t.pkt] else [] := by
  unfold serviceTarget at h
  split at h
  · next ht => exact serviceCPU_turn ht hn h
  · next ht =>
    simp only [servicePrefetcher, bind_ok_iff, ensure_ok_iff, exists_const, pure_ok_iff] at h
    obtain ⟨_, rfl⟩ := h
    have hno : answers s.heap t = false := by simp [answers, ht]
    rw [hno]
    refine ⟨Turn.quiet (fun _ _ => rfl) rfl rfl ?_ ?_, (List.append_nil _).symm⟩
    · simp only [drops, ht, Bool.not_false, Bool.and_true]
    · rintro ⟨⟨hs, _⟩, _⟩
      rw [ht] at hs
      cases hs
  · next ht =>
    simp only [serviceSnoop, bind_ok_iff, ensure_ok_iff, exists_const, pure_ok_iff] at h
    obtain ⟨_, post, _, _, r, hr, rfl⟩ := h
    have hno : answers s.heap t = false := by simp [answers, ht]
    rw [hno]
    refine ⟨Turn.quiet ?_ rfl rfl ?_ ?_, (List.append_nil _).symm⟩
    · intro i hi
      exact Function.update_of_ne hi _ _
    · simp only [useBlock, handleSnoop_valid hr, drops, ht]
      cases blkValid s.blk <;> cases (s.heap t.pkt).cmd.isInvalidate <;> simp
    · rintro ⟨⟨hs, _⟩, _⟩
      rw [ht] at hs
      cases hs

theorem Turn.next_le {s s' : Loop} {t : Target} (a : Turn resp s s' t) : s.next ≤ s'.next := by
  by_cases hl : lockedRead s.heap t ∧ Cache.useBlock resp s.mshr s.blk = true
  · obtain ⟨_, _, _, _, _, hx, _⟩ := a.relocked hl.1 hl.2
    exact hx ▸ Nat.le_succ s.next
  · exact Nat.le_of_eq (a.same hl).2.symm

theorem answers_congr {h h' : Heap} {t : Target} (e : h' t.pkt = h t.pkt) :
    answers h' t = answers h t := by
  simp only [answers, e]

theorem drops_congr {h h' : Heap} {t : Target} (e : h' t.pkt = h t.pkt) :
    drops h' t = drops h t := by
  simp only [drops, e]

theorem lockedRead_congr {h h' : Heap} {t : Target} (e : h' t.pkt = h t.pkt) :
    lockedRead h' t ↔ lockedRead h t := by
  simp only [lockedRead, e]

theorem serviceAll_append {s s' : Loop} {ts us : List Target} :
    serviceAll c o resp inv s (ts ++ us) = .ok s' ↔
      ∃ s₁, serviceAll c o resp inv s ts = .ok s₁ ∧ serviceAll c o resp inv s₁ us = .ok s' := by
  induction ts generalizing s with
  | nil => simp only [List.nil_append, serviceAll, pure_ok_iff, exists_eq_left']
  | cons t ts ih =>
    simp only [List.cons_append, serviceAll, bind_ok_iff, ih]
    constructor
    · rintro ⟨s₁, h₁, s₂, h₂, h₃⟩
      exact ⟨s₂, ⟨s₁, h₁, h₂⟩, h₃⟩
    · rintro ⟨s₂, ⟨s₁, h₁, h₂⟩, h₃⟩
      exact ⟨s₁, h₁, s₂, h₂, h₃⟩

/-- What the loop leaves, in terms of the list and the heap before it. -/
structure Run (resp : Packet) (s s' : Loop) (ts : List Target) : Prop where
  scheduled : s'.scheduled = s.scheduled ++ (ts.filter (answers s.heap)).map Target.pkt
  heap : ∀ i, i ∉ ts.map Target.pkt → i < s.next → s'.heap i = s.heap i
  next : s.next ≤ s'.next
  useBlock : useBlock resp s'.mshr s'.blk =
    (Cache.useBlock resp s.mshr s.blk && !ts.any (drops s.heap))
  same : (∀ t ∈ ts, ¬lockedRead s.heap t) → s'.mshr = s.mshr ∧ s'.next = s.next

theorem serviceAll_run {s s' : Loop} {ts : List Target} (hnd : (ts.map Target.pkt).Nodup)
    (hlt : ∀ t ∈ ts, t.pkt < s.next) (h : serviceAll c o resp inv s ts = .ok s') :
    Run resp s s' ts := by
  -- on the list: the turn of the head leaves the packets of the tail as they were
  induction ts generalizing s with
  | nil =>
    cases h
    refine ⟨(List.append_nil _).symm, fun _ _ _ => rfl, Nat.le_refl _, ?_, fun _ => ⟨rfl, rfl⟩⟩
    simp only [List.any_nil, Bool.not_false, Bool.and_true]
  | cons t ts ih =>
    simp only [serviceAll, bind_ok_iff, mapError_ok_iff] at h
    obtain ⟨s₁, h₁, h⟩ := h
    have ht : t.pkt < s.next := hlt t List.mem_cons_self
    obtain ⟨a, hs⟩ := serviceTarget_turn ht h₁
    rw [List.map_cons, List.nodup_cons] at hnd
    have hx := a.next_le
    have keep : ∀ u ∈ ts, s₁.heap u.pkt = s.heap u.pkt := by
      intro u hu
      refine a.heap u.pkt ?_ (hlt u (List.mem_cons_of_mem t hu))
      rintro he
      exact hnd.1 (he ▸ List.mem_map_of_mem hu)
    have r := ih hnd.2 (fun u hu => Nat.lt_of_lt_of_le (hlt u (List.mem_cons_of_mem t hu)) hx) h
    refine ⟨?_, ?_, Nat.le_trans hx r.next, ?_, ?_⟩
    · rw [r.scheduled, hs, List.filter_congr fun u hu => answers_congr (keep u hu),
        List.append_assoc]
      congr 1
      cases hans : answers s.heap t <;> simp [hans]
    · intro i hi hlt'
      rw [List.map_cons, List.mem_cons, not_or] at hi
      rw [r.heap i hi.2 (Nat.lt_of_lt_of_le hlt' hx), a.heap i hi.1 hlt']
    · have hany : ts.any (drops s₁.heap) = ts.any (drops s.heap) := by
        rw [Bool.eq_iff_iff, List.any_eq_true, List.any_eq_true]
        constructor
        · rintro ⟨u, hu, hd⟩
          exact ⟨u, hu, (drops_congr (keep u hu)).symm.trans hd⟩
        · rintro ⟨u, hu, hd⟩
          exact ⟨u, hu, (drops_congr (keep u hu)).trans hd⟩
      rw [r.useBlock, a.useBlock, hany, List.any_cons, Bool.not_or, Bool.and_assoc]
    · intro hno
      obtain ⟨e1, e2⟩ := a.same fun hl => hno t List.mem_cons_self hl.1
      obtain ⟨e3, e4⟩ := r.same fun u hu hl => hno u (List.mem_cons_of_mem t hu)
        ((lockedRead_congr (keep u hu)).mp hl)
      exact ⟨e3.trans e1, e4.trans e2⟩

/-! ## The whole function -/

/-- The targets that are left when the write half of a locked access has removed
the lock. -/
def unlockedTargets (resp : Packet) (m : Mshr) : List Target :=
  if resp.cmd = .lockedRMWWriteResp then m.targets.list.tail else m.targets.list

theorem popLocked_spec {h : Heap} {m m' : Mshr} (hr : popLocked resp h m = .ok m') :
    Mshr.SameEntry m m' ∧ m'.deferredTargets = m.deferredTargets ∧
      m'.targets.list = unlockedTargets resp m ∧
      ∃ first rest, m.targets.list = first :: rest ∧
        (resp.cmd = .lockedRMWWriteResp → (h first.pkt).cmd = .lockedRMWReadReq) := by
  simp only [popLocked, bind_ok_iff, mapError_ok_iff] at hr
  obtain ⟨first, hf, hr⟩ := hr
  obtain ⟨rest, hl⟩ := Mshr.front_ok hf
  unfold unlockedTargets
  split at hr
  · next hc =>
    simp only [bind_ok_iff, ensure_ok_iff, exists_const, pure_ok_iff] at hr
    obtain ⟨hfirst, rfl⟩ := hr
    rw [if_pos hc]
    exact ⟨⟨rfl, rfl, rfl, rfl, rfl, rfl, rfl⟩, rfl, rfl, first, rest, hl, fun _ => hfirst⟩
  · next hc =>
    cases hr
    rw [if_neg hc]
    exact ⟨Mshr.SameEntry.refl m, rfl, rfl, first, rest, hl, fun h => absurd h hc⟩

/-- A call that returns: the lists it cut, and the loop it ran. -/
theorem serviceMSHRTargets_ok {h : Heap} {next : PacketId} {m : Mshr} {blk : Option Blk}
    {s' : Loop} (hr : serviceMSHRTargets c o resp h next m blk = .ok s') :
    ∃ ready m' s, Mshr.SameEntry m m' ∧ m'.deferredTargets = m.deferredTargets ∧
      Mshr.serviceable h resp.cmd (unlockedTargets resp m) = .ok (ready, m'.targets.list) ∧
      serviceAll c o resp (isInvalidateFor resp m)
        ⟨h, next, m', blk, [], [], [], false, false⟩ ready = .ok s ∧
      s' = { s with blk := s'.blk } ∧
      ∃ first rest, m.targets.list = first :: rest ∧
        (resp.cmd = .lockedRMWWriteResp → (h first.pkt).cmd = .lockedRMWReadReq) := by
  simp only [serviceMSHRTargets, bind_ok_iff, mapError_ok_iff, pure_ok_iff] at hr
  obtain ⟨m₁, h₁, ⟨l, m₂⟩, h₂, s, h₃, b, _, rfl⟩ := hr
  obtain ⟨e₁, d₁, l₁, first⟩ := popLocked_spec h₁
  obtain ⟨e₂, d₂, l₂⟩ := Mshr.extractServiceableTargets_spec h₂
  rw [l₁] at l₂
  exact ⟨l.list, m₂, s, e₁.trans e₂, d₂.trans d₁, l₂, h₃, rfl, first⟩

theorem Mshr.Split.mem_of_ready {h : Heap} {lock : Option (List Target × Target)}
    {l ready left : List Target} (hs : Mshr.Split h lock l ready left) {t : Target}
    (ht : t ∈ ready) : t ∈ l := by
  cases hs with
  | gone _ perm _ => exact perm.mem_iff.mp (List.mem_append_left _ ht)
  | stays pre rest u _ hready _ hl _ _ =>
    subst hready hl
    rcases List.mem_append.mp ht with ht | ht
    · exact List.mem_append_left _ ht
    · rw [List.mem_singleton.mp ht]
      exact List.mem_append_right _ List.mem_cons_self

theorem Mshr.Split.nodup_ready {h : Heap} {lock : Option (List Target × Target)}
    {l ready left : List Target} (hs : Mshr.Split h lock l ready left)
    (hn : (l.map Target.pkt).Nodup) :
    (ready.map Target.pkt).Nodup := by
  cases hs with
  | gone _ perm _ =>
    have hp := (perm.map Target.pkt).nodup_iff.mpr hn
    rw [List.map_append] at hp
    exact hp.of_append_left
  | stays pre rest u _ hready _ hl _ _ =>
    subst hready hl
    have hsub : (pre ++ [u]).Sublist (pre ++ u :: rest) :=
      (List.Sublist.refl pre).append (List.singleton_sublist.mpr List.mem_cons_self)
    exact hn.sublist (hsub.map Target.pkt)

theorem unlockedTargets_sublist (resp : Packet) (m : Mshr) :
    (unlockedTargets resp m).Sublist m.targets.list := by
  unfold unlockedTargets
  split
  · exact List.tail_sublist _
  · exact List.Sublist.refl _

theorem Mshr.nodup_targets {m : Mshr} (hnd : m.pkts.Nodup) :
    (m.targets.list.map Target.pkt).Nodup :=
  hnd.sublist ((List.sublist_append_left _ _).map Target.pkt)

theorem ready_of_serviceable {h : Heap} {m : Mshr} {ready left : List Target}
    (hnd : (m.targets.list.map Target.pkt).Nodup)
    (hs : Mshr.serviceable h resp.cmd (unlockedTargets resp m) = .ok (ready, left)) :
    (ready.map Target.pkt).Nodup ∧ ∀ t ∈ ready, t ∈ m.targets.list := by
  have hsub := unlockedTargets_sublist resp m
  have hsplit := Mshr.serviceable_split hs
  exact ⟨hsplit.nodup_ready (hnd.sublist (hsub.map Target.pkt)),
    fun t ht => hsub.subset (hsplit.mem_of_ready ht)⟩

end PnmCompaction.Cache
