import PnmCompaction.Cache.Steps

/-!
# The write half of a locked access releases the line

Between the two halves of a locked access the line is held by an MSHR whose
first target is a locked read. That MSHR is in service, with nothing outstanding
below. A `LockedRMWWriteReq` that finds the block answers this MSHR; one that
does not is demoted to a plain write (base.cc 472-480), and a plain write that
meets an MSHR of its line only joins it.
-/

namespace PnmCompaction.Cache

open PnmCompaction.Lib.Checked PnmCompaction.Lib.Exec PnmCompaction.Lib.Ledger

variable {c : Params} {e : Environment} {resp p : Packet} {s s' : State} {m : Mshr} {l : Line}

def holdsLock (s : State) (l : Line) : Bool :=
  (findMatch s.mshrs l).any fun m => m.hasLockedRMWReadTarget s.heap

def lockWaiting (s : State) (l : Line) : Bool :=
  (findMatch s.mshrs l).any fun m =>
    (m.targets.list.tail ++ m.deferredTargets.list).any fun t =>
      (s.heap t.pkt).cmd == .lockedRMWReadReq

/-- What a handled write half leaves: the locked read it belongs to is not the
first target any more, and no other one is unless it has waited for its turn;
an MSHR that the write has been queued on will be sent or has been. -/
structure Released (s s' : State) (l : Line) : Prop where
  undone : ∀ m m' t t', findMatch s.mshrs l = some m → m.hasLockedRMWReadTarget s.heap = true →
    findMatch s'.mshrs l = some m' → m.targets.list.head? = some t →
    m'.targets.list.head? = some t' → t'.pkt ≠ t.pkt
  unlocked : lockWaiting s l = false → holdsLock s' l = false
  queued : ∀ m ∈ s'.mshrs, s.next ∈ m.pkts → m.inService = false ∨ m.id ∈ s'.outstanding

/-- A write half that leaves no locked read at all as the first target of the line,
and is not stuck itself. -/
structure Unlocked (s s' : State) (l : Line) : Prop where
  first : holdsLock s' l = false
  queued : ∀ m ∈ s'.mshrs, s.next ∈ m.pkts → m.inService = false ∨ m.id ∈ s'.outstanding

theorem Released.to_unlocked (h : Released s s' l) (hwait : lockWaiting s l = false) :
    Unlocked s s' l :=
  ⟨h.unlocked hwait, h.queued⟩

theorem Owned.eq_of_line (ho : Owned s) {m m' : Mshr} (hm : m ∈ s.mshrs) (hm' : m' ∈ s.mshrs)
    (hu : m.isUncacheable = false) (hu' : m'.isUncacheable = false) (hl : m.line = m'.line) :
    m = m' := by
  have : Std.Symm OtherLine := ⟨fun _ _ => OtherLine.symm⟩
  by_contra hne
  exact ho.lines.forall hm hm' hne hu hu' hl

theorem Owned.findMatch_eq (ho : Owned s) (hm : m ∈ s.mshrs) (hu : m.isUncacheable = false) :
    findMatch s.mshrs m.line = some m := by
  cases hf : findMatch s.mshrs m.line with
  | none =>
    have hno := List.find?_eq_none.mp hf m hm
    simp [hu] at hno
  | some m' =>
    obtain ⟨hm', hu', hl⟩ := findMatch_mem hf
    rw [ho.eq_of_line hm' hm hu' hu hl]

/-! ## The block is in the tags -/

theorem lockAt_eq_none {h : Heap} {l : List Target}
    (hno : ∀ t ∈ l, (h t.pkt).cmd ≠ .lockedRMWReadReq) : Mshr.lockAt h l = none := by
  induction l with
  | nil => rfl
  | cons t ts ih =>
    rw [Mshr.lockAt, if_neg (hno t List.mem_cons_self),
      ih fun u hu => hno u (List.mem_cons_of_mem _ hu)]
    rfl

theorem recvMSHRResp_unlocks (ho : Owned s) (hm : m ∈ s.mshrs)
    (hc : resp.cmd = .lockedRMWWriteResp) (hr : recvMSHRResp c e s m resp = .ok s') :
    ∃ t ts, m.targets.list = t :: ts ∧ (s.heap t.pkt).cmd = .lockedRMWReadReq ∧
      ∀ m' ∈ s'.mshrs, m'.id = m.id → t.pkt ∉ m'.pkts ∧
        ((∀ u ∈ ts ++ m.deferredTargets.list, (s.heap u.pkt).cmd ≠ .lockedRMWReadReq) →
          m'.hasLockedRMWReadTarget s'.heap = false) := by
  obtain ⟨f, q, r, hp, hs, hfin, _, t, ts, hl⟩ := recvMSHRResp_ok hr
  obtain ⟨_, _, _, _, _, _, _, _, first, rest, hfirst, hlock⟩ := serviceMSHRTargets_ok hs
  -- the first target is a locked read, so nothing was promoted before the service
  obtain ⟨moved, hmoved, _⟩ := (promoteTargets_spec hp).moved
  rw [hmoved, hl, List.cons_append, List.cons.injEq] at hfirst
  obtain ⟨rfl, _⟩ := hfirst
  have hlocked : m.hasLockedRMWReadTarget s.heap = true := by
    simp only [Mshr.hasLockedRMWReadTarget, hl, hlock hc, beq_self_eq_true]
  rw [promoteTargets, if_pos hlocked] at hp
  cases hp
  obtain ⟨hnd, hlt⟩ := ho.pkts hm
  have sv := serviceMSHRTargets_serviced hnd hlt hs
  have hun : unlockedTargets resp m = ts := by rw [unlockedTargets, if_pos hc, hl, List.tail_cons]
  have hpk : m.pkts = t.pkt :: (ts ++ m.deferredTargets.list).map Target.pkt := by
    rw [Mshr.pkts, hl, List.cons_append, List.map_cons]
  refine ⟨t, ts, hl, hlock hc, ?_⟩
  obtain ⟨⟨hheap, _⟩, _⟩ := finishResp_spec hfin
  intro m' hm' hid
  have hid' : m'.id = r.mshr.id := hid.trans sv.id.symm
  refine ⟨?_, fun hno => ?_⟩
  · intro hin
    rw [finishResp_pkts hfin hm' hid'] at hin
    have hin' := Multiset.mem_of_le sv.held (Multiset.mem_coe.mpr hin)
    rw [hun] at hin'
    rw [hpk] at hnd hlt
    rcases Multiset.mem_add.mp hin' with hin' | hin'
    · exact (List.nodup_cons.mp hnd).1 hin'
    · exact Nat.not_lt.mpr (Multiset.mem_Ico.mp hin').1 (hlt _ List.mem_cons_self)
  · have hnone : Mshr.servicedLock s.heap resp.cmd (unlockedTargets resp m) = none := by
      rw [Mshr.servicedLock, if_neg (by rw [hc]; decide), hun]
      exact lockAt_eq_none fun u hu => hno u (List.mem_append_left _ hu)
    unfold Mshr.hasLockedRMWReadTarget
    split
    · rfl
    · next u us hu =>
      have hmem : u ∈ r.mshr.targets.list ++ r.mshr.deferredTargets.list := by
        rw [← finishResp_lists hfin hm' hid', hu]
        exact List.mem_append_left _ List.mem_cons_self
      obtain ⟨hin, hsame⟩ := sv.calm hnone u hmem
      rw [hun] at hin
      rw [hheap, hsame, beq_eq_false_iff_ne]
      exact hno u hin

/-- A write half that finds the block is handled as a hit: it is not queued, and
the MSHR of the line is answered. -/
theorem baseTimingReq_restored (hc : p.cmd = .lockedRMWWriteReq)
    (hb : (s.tags.blocks (p.line c.blkSize)).isSome = true)
    (hr : baseTimingReq c e (s.arrive p) s.next = .ok s') :
    ∃ (q : Packet) (t : Tags) (m : Mshr) (s₂ : State),
      findMatch s.mshrs (p.line c.blkSize) = some m ∧
      recvMSHRResp c e { s.arrive p with
        heap := Function.update (s.arrive p).heap s.next q, tags := t } m (lockedWriteResp q) =
        .ok s₂ ∧
      s'.mshrs = s₂.mshrs ∧ ∀ i, i ≠ s.next → s'.heap i = s₂.heap i := by
  have hp : (s.arrive p).heap s.next = p := Function.update_self _ _ _
  simp only [baseTimingReq, bind_ok_iff, hp] at hr
  obtain ⟨⟨p₁, t₁⟩, hrest, ⟨hit, q, t⟩, ha, hr⟩ := hr
  have hp₁ : p₁ = p := by
    obtain ⟨b, hb⟩ := Option.isSome_iff_exists.mp hb
    simp only [restoreLocked, if_pos hc] at hrest
    have hb' : (s.arrive p).tags.blocks (p.line c.blkSize) = some b := hb
    rw [hb'] at hrest
    simp only [bind_ok_iff, ensure_ok_iff, exists_const, pure_ok_iff, Prod.mk.injEq] at hrest
    obtain ⟨_, _, _, _, _, rfl, _⟩ := hrest
    rfl
  subst hp₁
  obtain ⟨_, hh⟩ := access_spec ha
  dsimp only at hh hr
  have hq : (Function.update (s.arrive p₁).heap s.next q) s.next = q := Function.update_self _ _ _
  have hqc : q.cmd = .lockedRMWWriteReq := hh.cmd.trans hc
  have hql : q.line c.blkSize = p₁.line c.blkSize := by
    simp only [Packet.line, Packet.getBlockAddr, hh.addr, hh.isSecure]
  cases hit with
  | false =>
    -- a locked write must not miss
    simp only [Bool.false_eq_true, if_false, handleTimingReqMiss, bind_ok_iff, ensure_ok_iff,
      exists_const, hq] at hr
    exact absurd hqc hr.1
  | true =>
    simp only [if_true, handleTimingReqHit, bind_ok_iff, ensure_ok_iff, exists_const, hq, hqc] at hr
    obtain ⟨_, s₂, h₂, hr⟩ := hr
    obtain ⟨m, hm, h₂⟩ := unlockLine_ok (h₂ : unlockLine c e _ s.next = .ok s₂)
    dsimp only at hm h₂
    rw [hq] at hm h₂
    rw [hql] at hm
    refine ⟨q, t, m, s₂, hm, h₂, ?_⟩
    split at hr
    · simp only [deliver, bind_ok_iff, pure_ok_iff] at hr
      obtain ⟨_, _, rfl⟩ := hr
      exact ⟨rfl, fun i hi => Function.update_of_ne hi _ _⟩
    · cases hr
      exact ⟨rfl, fun _ _ => rfl⟩

theorem Replaces.id_of_mem {new : List Mshr} {n : ℕ} (r : Replaces s [m] new n) {m' : Mshr}
    (h : m' ∈ new) : m'.id = m.id := by
  cases r with
  | set _ m₁ id _ _ => rw [List.mem_singleton.mp h, id]
  | drop _ => cases h

theorem Change.id_of_line {extra : Multiset PacketId} {served : Prop} {new rest : List Mshr}
    (ch : Change extra served [m] new rest s s') (ho : Owned s) (hu : m.isUncacheable = false)
    {m' : Mshr} (hm' : m' ∈ s'.mshrs) (hu' : m'.isUncacheable = false) (hl : m'.line = m.line) :
    m'.id = m.id := by
  rcases List.mem_append.mp (ch.after.mem_iff.mp hm') with hin | hin
  · exact ch.replaces.id_of_mem hin
  · have hm : m ∈ s.mshrs := ch.before.mem_iff.mpr (List.mem_append_left _ List.mem_cons_self)
    have hr : m' ∈ s.mshrs := ch.before.mem_iff.mpr (List.mem_append_right _ hin)
    rw [ho.eq_of_line hr hm hu' hu hl]

theorem lockWaiting_eq_false (hf : findMatch s.mshrs l = some m) (hno : lockWaiting s l = false) :
    ∀ t ∈ m.targets.list.tail ++ m.deferredTargets.list,
      (s.heap t.pkt).cmd ≠ .lockedRMWReadReq := by
  intro t ht he
  rw [lockWaiting, hf, Option.any_some, List.any_eq_false] at hno
  exact hno t ht (beq_iff_eq.mpr he)

theorem holdsLock_eq_false (h : ∀ m, findMatch s.mshrs l = some m →
    m.hasLockedRMWReadTarget s.heap = false) : holdsLock s l = false := by
  unfold holdsLock
  cases hf : findMatch s.mshrs l with
  | none => rfl
  | some m => exact h m hf

/-- The state in which the write half answers the lock: the write has arrived and
its access has changed the tags only. -/
theorem owned_accessed (p q : Packet) (tg : Tags) (ho : Owned s) :
    Owned { s.arrive p with
      heap := Function.update (s.arrive p).heap s.next q, tags := tg } := by
  have hx : Below (s.held + 0) s.next := (add_zero s.held).symm ▸ ho.held
  have sh₀ : Shift 0 {s.next} s (s.arrive p) := Shift.arrive p
  have sh₁ : Shift {s.next} {s.next} (s.arrive p) _ := Shift.tags q tg
  exact sh₁.owned (sh₀.below hx) (sh₀.owned hx ho)

theorem accessed_heap {q : Packet} (ho : Owned s) (hm : m ∈ s.mshrs) :
    ∀ i ∈ m.pkts, Function.update (s.arrive p).heap s.next q i = s.heap i := by
  intro i hi
  have hne := Nat.ne_of_lt ((ho.pkts hm).2 i hi)
  exact (Function.update_of_ne hne _ _).trans (Function.update_of_ne hne _ _)

/-- A write half that is handled as a hit found the lock. -/
theorem holdsLock_of_block (ho : Owned s) (hc : p.cmd = .lockedRMWWriteReq)
    (hb : (s.tags.blocks (p.line c.blkSize)).isSome = true)
    (hr : baseTimingReq c e (s.arrive p) s.next = .ok s') :
    holdsLock s (p.line c.blkSize) = true := by
  obtain ⟨q, tg, m, s₂, hf, hresp, _, _⟩ := baseTimingReq_restored hc hb hr
  obtain ⟨hm, _, _⟩ := findMatch_mem hf
  obtain ⟨t, ts, hl, hlock, _⟩ := recvMSHRResp_unlocks (owned_accessed p q tg ho) hm rfl hresp
  have hhead : m.targets.list.head? = some t := by rw [hl, List.head?_cons]
  have ht : t.pkt ∈ m.pkts := Mshr.head_mem_pkts hhead
  dsimp only at hlock
  rw [accessed_heap ho hm t.pkt ht] at hlock
  simp only [holdsLock, hf, Option.any_some, Mshr.hasLockedRMWReadTarget, hl, hlock,
    beq_self_eq_true]

theorem released_of_block (ho : Owned s) (hc : p.cmd = .lockedRMWWriteReq)
    (hb : (s.tags.blocks (p.line c.blkSize)).isSome = true)
    (hr : baseTimingReq c e (s.arrive p) s.next = .ok s') :
    Released s s' (p.line c.blkSize) := by
  obtain ⟨q, tg, m, s₂, hf, hresp, hmshrs, hheap⟩ := baseTimingReq_restored hc hb hr
  have ho₁ := owned_accessed p q tg ho
  obtain ⟨hm, hu, hline⟩ := findMatch_mem hf
  obtain ⟨new, rest, ch⟩ := recvMSHRResp_change s.outstanding ho₁ hm (fun _ h _ => h) hresp
  obtain ⟨t, ts, hl, _, hgone⟩ := recvMSHRResp_unlocks ho₁ hm rfl hresp
  have hsame := accessed_heap (p := p) (q := q) ho hm
  -- the packet of the write is with no MSHR
  have hfree : ∀ m' ∈ s'.mshrs, s.next ∉ m'.pkts := by
    intro m' hm' hin
    have hin' : s.next ∈ s₂.held :=
      Multiset.mem_add.mpr (Or.inr (mem_mshrPkts (hmshrs ▸ hm') hin))
    have hle := Multiset.mem_of_le ch.held_le hin'
    rw [add_zero] at hle
    rcases Multiset.mem_add.mp hle with h | h
    · exact Nat.lt_irrefl _ (ho.held.2 _ h)
    · exact Nat.not_lt.mpr (Multiset.mem_Ico.mp h).1 (Nat.lt_succ_self s.next)
  have hid : ∀ m', findMatch s'.mshrs (p.line c.blkSize) = some m' →
      m' ∈ s₂.mshrs ∧ m'.id = m.id := by
    intro m' hf'
    obtain ⟨hm', hu', hl'⟩ := findMatch_mem hf'
    exact ⟨hmshrs ▸ hm', ch.id_of_line ho₁ hu (hmshrs ▸ hm') hu' (hl'.trans hline.symm)⟩
  refine ⟨?_, ?_, fun m' hm' hin => absurd hin (hfree m' hm')⟩
  · intro m₁ m' t₁ t' hf₁ _ hf' ht₁ ht'
    rw [hf] at hf₁
    cases hf₁
    rw [hl] at ht₁
    cases ht₁
    obtain ⟨hm', hid'⟩ := hid m' hf'
    intro he
    exact (hgone m' hm' hid').1 (he ▸ Mshr.head_mem_pkts ht')
  · intro hwait
    refine holdsLock_eq_false fun m' hf' => ?_
    obtain ⟨hm', hid'⟩ := hid m' hf'
    have hno := lockWaiting_eq_false hf hwait
    rw [hl, List.tail_cons] at hno
    refine Eq.trans ?_ ((hgone m' hm' hid').2 fun u hu => ?_)
    · refine hasLockedRMWReadTarget_congr rfl fun u hu => ?_
      rw [hheap u.pkt]
      · exact SameLock.refl _
      · rintro he
        exact hfree m' (hmshrs ▸ hm') (he ▸ Mshr.head_mem_pkts hu)
    · dsimp only
      rw [hsame u.pkt]
      · exact hno u hu
      · rw [Mshr.pkts, hl]
        exact List.mem_map_of_mem (List.mem_cons_of_mem _ hu)

/-! ## The block is not in the tags -/

theorem baseAccess_absent {mshrs : List Mshr} {h : Heap} {tags : Tags} {a : Bool × Packet × Tags}
    (hc : p.cmd = .writeReq) (hb : tags.blocks (p.line c.blkSize) = none)
    (hr : baseAccess c e mshrs h tags p = .ok a) : a = (false, p, tags) := by
  simp only [baseAccess, bind_ok_iff, ensure_ok_iff, exists_const, hc, hb] at hr
  obtain ⟨_, _, hr⟩ := hr
  split at hr
  · exact (pure_ok_iff.mp hr).symm
  · exact (pure_ok_iff.mp hr).symm

/-- Without the block the write half goes on as a plain write that misses. -/
theorem baseTimingReq_demoted (hc : p.cmd = .lockedRMWWriteReq)
    (hu : p.req.isUncacheable = false) (hb : s.tags.blocks (p.line c.blkSize) = none)
    (hr : baseTimingReq c e (s.arrive p) s.next = .ok s') :
    baseTimingReqMiss c (s.arrive { p with cmd := .writeReq }) s.next = .ok s' := by
  have hp : (s.arrive p).heap s.next = p := Function.update_self _ _ _
  have hb' : (s.arrive p).tags.blocks (p.line c.blkSize) = none := hb
  simp only [baseTimingReq, bind_ok_iff, hp, restoreLocked, if_pos hc, hb', pure_ok_iff,
    exists_eq_left', access, hu, Bool.false_eq_true, if_false] at hr
  obtain ⟨a, ha, hr⟩ := hr
  rw [baseAccess_absent (p := { p with cmd := .writeReq }) rfl hb' ha] at hr
  have hst : { s.arrive p with
      heap := Function.update (s.arrive p).heap s.next { p with cmd := .writeReq } } =
      s.arrive { p with cmd := .writeReq } := by
    simp only [State.arrive, Function.update_idem]
  dsimp only at hr
  rw [if_neg (by decide), hst] at hr
  have hp' : (s.arrive { p with cmd := .writeReq }).heap s.next = { p with cmd := .writeReq } :=
    Function.update_self _ _ _
  simp only [handleTimingReqMiss, bind_ok_iff, ensure_ok_iff, exists_const, hp', hu,
    Bool.false_eq_true, if_false] at hr
  exact hr.2

theorem writeMiss_cases (hb : s.tags.blocks (p.line c.blkSize) = none) (hc : p.cmd = .writeReq)
    (hr : baseTimingReqMiss c (s.arrive p) s.next = .ok s') :
    (∃ m h m', findMatch s.mshrs (p.line c.blkSize) = some m ∧
      m.allocateTarget (s.arrive p).heap s.next (allocOnFill c .writeReq) = .ok (h, m') ∧
      s' = { s.arrive p with heap := h, mshrs := setMshr s.mshrs m' }) ∨
    (findMatch s.mshrs (p.line c.blkSize) = none ∧
      s' = allocateMissBuffer c (s.arrive p) s.next) := by
  have hp : (s.arrive p).heap s.next = p := Function.update_self _ _ _
  have hb' : (s.arrive p).tags.blocks (p.line c.blkSize) = none := hb
  simp only [baseTimingReqMiss, hp, hc, hb'] at hr
  split at hr
  · next m hf =>
    simp only [bind_ok_iff, ensure_ok_iff, exists_const] at hr
    obtain ⟨_, hr⟩ := hr
    rw [if_neg (by decide)] at hr
    simp only [bind_ok_iff, pure_ok_iff] at hr
    obtain ⟨⟨h, m'⟩, ha, rfl⟩ := hr
    exact Or.inl ⟨m, h, m', hf, ha, rfl⟩
  · next hf =>
    rw [if_neg (by decide)] at hr
    cases hr
    exact Or.inr ⟨hf, rfl⟩

theorem mem_of_mem_setMshr {l : List Mshr} {m m' : Mshr} (h : m' ∈ setMshr l m) :
    m' = m ∨ m' ∈ l := by
  obtain ⟨x, hx, rfl⟩ := List.mem_map.mp h
  by_cases he : x.id = m.id
  · exact Or.inl (if_pos he)
  · rw [if_neg he]
    exact Or.inr hx

theorem Owned.next_notMem (ho : Owned s) (hm : m ∈ s.mshrs) : s.next ∉ m.pkts :=
  fun h => Nat.lt_irrefl _ ((ho.pkts hm).2 _ h)

/-- A write that joins an MSHR leaves its first target, and with it the lock. -/
structure Joined (s s' : State) (m m' : Mshr) (l : Line) : Prop where
  before : findMatch s.mshrs l = some m
  after : findMatch s'.mshrs l = some m'
  head : m'.targets.list.head? = m.targets.list.head?
  filled : m.targets.list ≠ []
  lock : m'.hasLockedRMWReadTarget s'.heap = m.hasLockedRMWReadTarget s.heap
  queued : m.hasLockedRMWReadTarget s.heap = false →
    ∀ x ∈ s'.mshrs, s.next ∈ x.pkts → x.inService = false ∨ x.id ∈ s'.outstanding

theorem joined_of_allocateTarget {w : Packet} {h : Heap} {m' : Mshr} {a : Bool} (ho : Owned s)
    (ho' : Owned { s.arrive w with heap := h, mshrs := setMshr s.mshrs m' })
    (hf : findMatch s.mshrs l = some m)
    (ha : m.allocateTarget (s.arrive w).heap s.next a = .ok (h, m')) :
    Joined s { s.arrive w with heap := h, mshrs := setMshr s.mshrs m' } m m' l := by
  obtain ⟨en, hlocks, _, first, ts, hl, hlists⟩ := Mshr.allocateTarget_spec ha
  obtain ⟨hm, hu, hline⟩ := findMatch_mem hf
  have hhead : m'.targets.list.head? = m.targets.list.head? := by
    rcases hlists with ⟨ht, _⟩ | ⟨ht, _⟩ <;> simp only [ht, hl, List.cons_append, List.head?_cons]
  refine ⟨hf, ?_, hhead, hl ▸ List.cons_ne_nil _ _, ?_, fun hno x hx hin => ?_⟩
  · have hl' : m'.line = l := (congrArg₂ Line.mk en.blkAddr en.isSecure).trans hline
    rw [← hl']
    exact ho'.findMatch_eq (mem_setMshr hm en.id) (en.isUncacheable.trans hu)
  · refine hasLockedRMWReadTarget_congr hhead fun t ht => ?_
    have hlt := (ho.pkts hm).2 t.pkt (Mshr.head_mem_pkts ht)
    have hsame : (s.arrive w).heap t.pkt = s.heap t.pkt :=
      Function.update_of_ne (Nat.ne_of_lt hlt) _ _
    exact hsame ▸ hlocks t.pkt
  · rcases mem_of_mem_setMshr hx with rfl | hx
    · cases hin : x.inService with
      | false => exact Or.inl rfl
      | true =>
        refine Or.inr ?_
        rcases ho.waits m hm (en.inService ▸ hin) with hout | hlk
        · exact en.id ▸ hout
        · rw [hno] at hlk
          cases hlk
    · exact absurd hin (ho.next_notMem hx)

theorem Joined.holdsLock_before {m' : Mshr} (j : Joined s s' m m' l) :
    holdsLock s l = m.hasLockedRMWReadTarget s.heap := by
  rw [holdsLock, j.before, Option.any_some]

theorem Joined.holdsLock_after {m' : Mshr} (j : Joined s s' m m' l) :
    holdsLock s' l = holdsLock s l := by
  rw [j.holdsLock_before, holdsLock, j.after, Option.any_some, j.lock]

theorem Joined.unlocked_iff {m' : Mshr} (j : Joined s s' m m' l) :
    Unlocked s s' l ↔ holdsLock s l = false := by
  rw [← j.holdsLock_after]
  refine ⟨Unlocked.first, fun hno => ⟨hno, j.queued ?_⟩⟩
  rwa [j.holdsLock_after, j.holdsLock_before] at hno

theorem Joined.released_iff {m' : Mshr} (j : Joined s s' m m' l) :
    Released s s' l ↔ holdsLock s l = false := by
  constructor
  · intro hrel
    by_contra hno
    rw [j.holdsLock_before, Bool.not_eq_false] at hno
    obtain ⟨first, hfirst⟩ := Option.ne_none_iff_exists'.mp (mt List.head?_eq_none_iff.mp j.filled)
    exact hrel.undone m m' first first j.before hno j.after hfirst (j.head.trans hfirst) rfl
  · intro hno
    obtain ⟨hfree, hqueued⟩ := j.unlocked_iff.mpr hno
    refine ⟨fun m₁ _ _ _ hf₁ hlk => ?_, fun _ => hfree, hqueued⟩
    rw [holdsLock, hf₁, Option.any_some, hlk] at hno
    cases hno

theorem unlocked_new {w : Packet} (ho : Owned s) (hc : w.cmd = .writeReq)
    (hf : findMatch s.mshrs (w.line c.blkSize) = none) :
    Unlocked s (allocateMissBuffer c (s.arrive w) s.next) (w.line c.blkSize) := by
  have hw : (s.arrive w).heap s.next = w := Function.update_self _ _ _
  refine ⟨holdsLock_eq_false ?_, ?_⟩
  · intro m hm
    obtain ⟨hmem, hu, hline⟩ := findMatch_mem hm
    rcases List.mem_append.mp hmem with hmem | hmem
    · have hno := List.find?_eq_none.mp hf m hmem
      simp [hu, hline] at hno
    · rw [List.mem_singleton.mp hmem]
      simp only [Mshr.hasLockedRMWReadTarget, Mshr.allocate, TargetList.add_list, TargetList.init,
        List.nil_append]
      show (((s.arrive w).heap s.next).cmd == .lockedRMWReadReq) = false
      rw [hw, hc]
      rfl
  · intro m hm hin
    rcases List.mem_append.mp hm with hm | hm
    · exact absurd hin (ho.next_notMem hm)
    · rw [List.mem_singleton.mp hm]
      exact Or.inl rfl

theorem Unlocked.to_released (h : Unlocked s s' l) (hf : findMatch s.mshrs l = none) :
    Released s s' l := by
  refine ⟨fun m _ _ _ hm => ?_, fun _ => h.first, h.queued⟩
  rw [hf] at hm
  cases hm

theorem owned_baseTimingReq (ho : Owned s) (hr : baseTimingReq c e (s.arrive p) s.next = .ok s') :
    Owned s' := by
  have hx : Below (s.held + 0) s.next := (add_zero s.held).symm ▸ ho.held
  have sh : Shift 0 {s.next} s (s.arrive p) := Shift.arrive p
  obtain ⟨old, new, rest, ch⟩ := baseTimingReq_change (sh.owned hx ho) (sh.below hx) hr
  exact ch.owned (sh.below hx) (sh.owned hx ho)

theorem absent_iff (ho : Owned s) (hc : p.cmd = .lockedRMWWriteReq)
    (hu : p.req.isUncacheable = false) (hb : s.tags.blocks (p.line c.blkSize) = none)
    (hr : baseTimingReq c e (s.arrive p) s.next = .ok s') :
    (Released s s' (p.line c.blkSize) ↔ holdsLock s (p.line c.blkSize) = false) ∧
      (Unlocked s s' (p.line c.blkSize) ↔ holdsLock s (p.line c.blkSize) = false) := by
  have ho' := owned_baseTimingReq ho hr
  have hmiss := baseTimingReq_demoted hc hu hb hr
  rcases writeMiss_cases (p := { p with cmd := .writeReq }) hb rfl hmiss with
    ⟨m, h, m', hf, ha, rfl⟩ | ⟨hf, rfl⟩
  · have j := joined_of_allocateTarget ho ho' hf ha
    exact ⟨j.released_iff, j.unlocked_iff⟩
  · have hnew := unlocked_new (w := { p with cmd := .writeReq }) ho rfl hf
    have hfree : holdsLock s (p.line c.blkSize) = false :=
      holdsLock_eq_false fun m hm => absurd (hf.symm.trans hm) (by simp)
    exact ⟨iff_of_true (hnew.to_released hf) hfree, iff_of_true hnew hfree⟩

/-- In every reachable state, a write half that is handled undoes its own lock
exactly if its block is in the tags or the line is not locked. No locked read at
all is left as the first target if the line is not locked, or the block is in the
tags and no other locked read waits in the MSHR; and only if the line is not
locked or the block is in the tags. -/
theorem locked_write_releases_iff (c : Params) (e : Environment) (as : List Action) (s s' : State)
    (p : Packet) (hr : exec (step c) State.init as = some s) (hc : p.cmd = .lockedRMWWriteReq)
    (hu : p.req.isUncacheable = false)
    (hw : baseTimingReq c e (s.arrive p) s.next = .ok s') :
    (Released s s' (p.line c.blkSize) ↔
      (s.tags.blocks (p.line c.blkSize)).isSome = true ∨
        holdsLock s (p.line c.blkSize) = false) ∧
    (holdsLock s (p.line c.blkSize) = false ∨
        ((s.tags.blocks (p.line c.blkSize)).isSome = true ∧
          lockWaiting s (p.line c.blkSize) = false) →
      Unlocked s s' (p.line c.blkSize)) ∧
    (Unlocked s s' (p.line c.blkSize) →
      holdsLock s (p.line c.blkSize) = false ∨
        (s.tags.blocks (p.line c.blkSize)).isSome = true) := by
  have ho := owned_of_exec hr
  cases hb : s.tags.blocks (p.line c.blkSize) with
  | none =>
    obtain ⟨hrel, hunl⟩ := absent_iff ho hc hu hb hw
    simp only [hrel, hunl, Option.isSome_none, Bool.false_eq_true, false_and, or_false, false_or,
      imp_self, and_self]
  | some b =>
    have hb' : (s.tags.blocks (p.line c.blkSize)).isSome = true := by rw [hb, Option.isSome_some]
    have hrel := released_of_block ho hc hb' hw
    refine ⟨iff_of_true hrel (Or.inl rfl), ?_, fun _ => Or.inr rfl⟩
    rintro (hno | ⟨_, hwait⟩)
    · rw [holdsLock_of_block ho hc hb' hw] at hno
      cases hno
    · exact hrel.to_unlocked hwait

/-- A locked access that misses, with a read queued behind the lock: the block is
in the tags when the write half comes. -/
theorem filled_lock_released :
    ∃ s s' : State,
      exec (step Params.plain) State.init
        [.request (.plain .lockedRMWReadReq false) .quiet, .send 0 true .quiet,
          .response 0 (.plain .readExResp false) .quiet,
          .request (.plain .readReq false) .quiet] = some s ∧
      baseTimingReq Params.plain .quiet (s.arrive (.plain .lockedRMWWriteReq false)) s.next =
        .ok s' ∧
      holdsLock s ⟨0, false⟩ = true ∧ Released s s' ⟨0, false⟩ ∧ Unlocked s s' ⟨0, false⟩ := by
  refine ⟨_, _, rfl, rfl, by decide +kernel, ?_⟩
  have h := locked_write_releases_iff Params.plain .quiet
    [.request (.plain .lockedRMWReadReq false) .quiet, .send 0 true .quiet,
      .response 0 (.plain .readExResp false) .quiet, .request (.plain .readReq false) .quiet]
    _ _ (.plain .lockedRMWWriteReq false) rfl rfl rfl rfl
  exact ⟨h.1.mpr (Or.inl (by decide +kernel)),
    h.2.1 (Or.inr ⟨by decide +kernel, by decide +kernel⟩)⟩

-- a second locked read that waits in the MSHR takes the lock over
example : ((exec (step Params.plain) State.init
    [.request (.plain .readReq false) .quiet, .send 0 true .quiet,
      .response 0 (.plain .readExResp false) .quiet,
      .request (.plain .lockedRMWReadReq false) .quiet,
      .request (.plain .lockedRMWReadReq false) .quiet]).bind fun s =>
    (step Params.plain s (.request (.plain .lockedRMWWriteReq false) .quiet)).map fun s' =>
      ((s.tags.blocks ⟨0, false⟩).isSome, lockWaiting s ⟨0, false⟩, holdsLock s' ⟨0, false⟩)) =
    some (true, true, true) := by
  decide +kernel

/-- The line is filled and locked by a hit, then an uncacheable read evicts it.
The write half is queued behind the lock, in an MSHR that is in service with
nothing outstanding. -/
theorem evicted_lock_not_released :
    ∃ s s' : State,
      exec (step Params.plain) State.init
        [.request (.plain .readReq false) .quiet, .send 0 true .quiet,
          .response 0 (.plain .readExResp false) .quiet,
          .request (.plain .lockedRMWReadReq false) .quiet,
          .request (.plain .readReq true) .quiet] = some s ∧
      baseTimingReq Params.plain .quiet (s.arrive (.plain .lockedRMWWriteReq false)) s.next =
        .ok s' ∧
      lockWaiting s ⟨0, false⟩ = false ∧ holdsLock s' ⟨0, false⟩ = true ∧
      (∃ m ∈ s'.mshrs, s.next ∈ m.pkts ∧ m.inService = true ∧ m.id ∉ s'.outstanding) ∧
      ¬Released s s' ⟨0, false⟩ ∧ ¬Unlocked s s' ⟨0, false⟩ := by
  have hlocked : ∀ s s' : State, lockWaiting s ⟨0, false⟩ = false →
      holdsLock s' ⟨0, false⟩ = true →
      ¬Released s s' ⟨0, false⟩ ∧ ¬Unlocked s s' ⟨0, false⟩ := by
    intro s s' hno hlk
    have hunl : ¬Unlocked s s' ⟨0, false⟩ := fun h => by
      rw [h.first] at hlk
      cases hlk
    exact ⟨fun h => hunl (h.to_unlocked hno), hunl⟩
  refine ⟨_, _, rfl, rfl, ?_, ?_, ?_, hlocked _ _ ?_ ?_⟩
  · decide +kernel
  · decide +kernel
  · decide +kernel
  · decide +kernel
  · decide +kernel

end PnmCompaction.Cache
