import PnmCompaction.Cache.Turns
import PnmCompaction.Cache.Controller
import PnmCompaction.Lib.Ledger
import Mathlib.Tactic.Abel

/-!
# Who holds a packet

A packet that has come in is with an MSHR, in the write buffer, or has been
handed back to the CPU side. The steps of the cache move packets between these
places and make new ones; what `serviceMSHRTargets` moves is decided by the
locked read that it services.
-/

namespace PnmCompaction.Cache

open PnmCompaction.Lib.Checked PnmCompaction.Lib.Ledger

def pktsOf (l : List Target) : Multiset PacketId := (l.map Target.pkt : List PacketId)

@[simp] theorem pktsOf_nil : pktsOf [] = 0 := rfl

@[simp] theorem pktsOf_cons (t : Target) (l : List Target) :
    pktsOf (t :: l) = {t.pkt} + pktsOf l := rfl

@[simp] theorem pktsOf_append (l l' : List Target) : pktsOf (l ++ l') = pktsOf l + pktsOf l' := by
  simp only [pktsOf, List.map_append, Multiset.coe_add]

theorem pktsOf_perm {l l' : List Target} (h : l.Perm l') : pktsOf l = pktsOf l' :=
  Multiset.coe_eq_coe.mpr (h.map Target.pkt)

theorem pktsOf_sublist {l l' : List Target} (h : l.Sublist l') : pktsOf l ≤ pktsOf l' :=
  Multiset.coe_le.mpr (h.map Target.pkt).subperm

theorem Mshr.head_mem_pkts {m : Mshr} {t : Target} (ht : t ∈ m.targets.list.head?) :
    t.pkt ∈ m.pkts :=
  List.mem_map_of_mem (List.mem_append_left _ (List.mem_of_mem_head? ht))

theorem coe_pkts (m : Mshr) :
    (m.pkts : Multiset PacketId) = pktsOf m.targets.list + pktsOf m.deferredTargets.list :=
  pktsOf_append m.targets.list m.deferredTargets.list

variable {c : Params} {e : Environment} {o : Surroundings} {resp : Packet} {inv : Bool}

/-! ## Responses -/

/-- If a locked read of the CPU is serviced, then from the block: the block is
valid, a forwarded response brings no data, and no target ahead of the locked
read takes the block away. -/
def LockServed (h : Heap) (resp : Packet) (m : Mshr) (blk : Option Blk) : Prop :=
  match Mshr.servicedLock h resp.cmd (unlockedTargets resp m) with
  | none => True
  | some (pre, t) =>
    t.source = .fromCPU → useBlock resp m blk = true ∧ pre.any (drops h) = false

instance (h : Heap) (resp : Packet) (m : Mshr) (blk : Option Blk) :
    Decidable (LockServed h resp m blk) := by
  unfold LockServed
  split <;> infer_instance

theorem serviceAll_lock {s s' : Loop} {pre rest : List Target} {t : Target}
    (hnd : ((pre ++ [t]).map Target.pkt).Nodup) (hlt : ∀ x ∈ pre ++ [t], x.pkt < s.next)
    (hpre : ∀ x ∈ pre, (s.heap x.pkt).cmd ≠ .lockedRMWReadReq)
    (hfirst : s.mshr.targets.list = t :: rest)
    (h : serviceAll c o resp inv s (pre ++ [t]) = .ok s') :
    (lockedRead s.heap t ∧ useBlock resp s.mshr s.blk = true ∧ pre.any (drops s.heap) = false →
        s'.mshr = { s.mshr with
          targets := { s.mshr.targets with list := { t with pkt := s.next } :: rest } } ∧
        s'.next = s.next + 1) ∧
      (¬(lockedRead s.heap t ∧ useBlock resp s.mshr s.blk = true ∧
          pre.any (drops s.heap) = false) →
        s'.mshr = s.mshr ∧ s'.next = s.next) := by
  obtain ⟨s₁, h₁, h₂⟩ := serviceAll_append.mp h
  rw [List.map_append, List.nodup_append] at hnd
  obtain ⟨hndp, _, hdis⟩ := hnd
  have ht : t ∈ pre ++ [t] := List.mem_append_right pre List.mem_cons_self
  have r := serviceAll_run hndp (fun x hx => hlt x (List.mem_append_left _ hx)) h₁
  obtain ⟨hm, hn⟩ := r.same fun x hx hl => hpre x hx hl.2
  have hkeep : s₁.heap t.pkt = s.heap t.pkt :=
    r.heap t.pkt (fun hm => hdis _ hm _ List.mem_cons_self rfl) (hlt t ht)
  have hlt₁ : t.pkt < s₁.next := by
    rw [hn]
    exact hlt t ht
  simp only [serviceAll, bind_ok_iff, mapError_ok_iff, pure_ok_iff, exists_eq_right] at h₂
  obtain ⟨a, _⟩ := serviceTarget_turn hlt₁ h₂
  have hub : useBlock resp s₁.mshr s₁.blk = true ↔
      useBlock resp s.mshr s.blk = true ∧ pre.any (drops s.heap) = false := by
    rw [r.useBlock, Bool.and_eq_true, Bool.not_eq_true']
  constructor
  · rintro ⟨hl, hu⟩
    obtain ⟨u, rest', hl', _, hs', hx, _⟩ :=
      a.relocked ((lockedRead_congr hkeep).mpr hl) (hub.mpr hu)
    rw [hm, hfirst] at hl'
    cases hl'
    rw [hs', hx, hm, hn]
    exact ⟨rfl, rfl⟩
  · intro hno
    obtain ⟨e₁, e₂⟩ := a.same fun hl => hno ⟨(lockedRead_congr hkeep).mp hl.1, hub.mp hl.2⟩
    exact ⟨e₁.trans hm, e₂.trans hn⟩

/-- Where the packets of the MSHR are after `serviceMSHRTargets`. -/
structure Serviced (resp : Packet) (h : Heap) (next : PacketId) (m : Mshr) (blk : Option Blk)
    (r : Loop) : Prop where
  id : r.mshr.id = m.id
  line : r.mshr.line = m.line
  isUncacheable : r.mshr.isUncacheable = m.isUncacheable
  inService : r.mshr.inService = m.inService
  next_le : next ≤ r.next
  heap : ∀ i, i ∉ m.pkts → i < next → r.heap i = h i
  held : (r.mshr.pkts : Multiset PacketId) ≤
    pktsOf (unlockedTargets resp m ++ m.deferredTargets.list) + Multiset.Ico next r.next
  once : LockServed h resp m blk → (r.scheduled : Multiset PacketId) + r.mshr.pkts ≤
    pktsOf (unlockedTargets resp m ++ m.deferredTargets.list) + Multiset.Ico next r.next
  /-- a locked read that was not served from the block has been answered and stays -/
  twice : ¬LockServed h resp m blk →
    ∃ t ts, r.mshr.targets.list = t :: ts ∧ t.pkt ∈ r.scheduled
  calm : Mshr.servicedLock h resp.cmd (unlockedTargets resp m) = none →
    ∀ t ∈ r.mshr.targets.list ++ r.mshr.deferredTargets.list,
      t ∈ unlockedTargets resp m ++ m.deferredTargets.list ∧ r.heap t.pkt = h t.pkt

theorem pkts_unlocked_le (resp : Packet) (m : Mshr) :
    pktsOf (unlockedTargets resp m ++ m.deferredTargets.list) ≤ (m.pkts : Multiset PacketId) :=
  pktsOf_sublist ((unlockedTargets_sublist resp m).append (List.Sublist.refl _))

theorem lockedRead_answers {h : Heap} {t : Target} (hl : lockedRead h t) : answers h t = true := by
  simp only [answers, hl.1, Packet.isRequest, hl.2]
  decide

/-- A call of `serviceMSHRTargets` that has returned `r`: it cut off the targets
`ready`, and `m'` was the MSHR that kept the others. -/
structure Cut (h : Heap) (next : PacketId) (m : Mshr) (ready : List Target) (m' : Mshr) (r : Loop) :
    Prop where
  entry : Mshr.SameEntry m m'
  deferred : m'.deferredTargets = m.deferredTargets
  next_le : next ≤ r.next
  scheduled : r.scheduled = (ready.filter (answers h)).map Target.pkt
  heap : ∀ i, i ∉ ready.map Target.pkt → i < next → r.heap i = h i
  mem : ∀ t ∈ ready, t.pkt ∈ m.pkts

theorem Cut.serviced {h : Heap} {next : PacketId} {m m' : Mshr} {blk : Option Blk}
    {ready : List Target} {r : Loop} (k : Cut h next m ready m' r) {l : TargetList}
    (hlt : ∀ i ∈ m.pkts, i < next) (hm : r.mshr = { m' with targets := l })
    (held : pktsOf (l.list ++ m.deferredTargets.list) ≤
      pktsOf (unlockedTargets resp m ++ m.deferredTargets.list) + Multiset.Ico next r.next)
    (once : LockServed h resp m blk →
      pktsOf (ready.filter (answers h)) + pktsOf (l.list ++ m.deferredTargets.list) ≤
        pktsOf (unlockedTargets resp m ++ m.deferredTargets.list) + Multiset.Ico next r.next)
    (twice : ¬LockServed h resp m blk →
      ∃ t ts, l.list = t :: ts ∧ t ∈ ready ∧ answers h t = true)
    (calm : Mshr.servicedLock h resp.cmd (unlockedTargets resp m) = none →
      ∀ t ∈ l.list ++ m.deferredTargets.list,
        t ∈ unlockedTargets resp m ++ m.deferredTargets.list ∧ t.pkt ∉ ready.map Target.pkt) :
    Serviced resp h next m blk r := by
  have hlist : r.mshr.targets.list = l.list := by rw [hm]
  have hdef : r.mshr.deferredTargets = m.deferredTargets := by
    rw [hm]
    exact k.deferred
  have hpk : (r.mshr.pkts : Multiset PacketId) = pktsOf (l.list ++ m.deferredTargets.list) := by
    rw [coe_pkts, hlist, hdef, pktsOf_append]
  refine ⟨by rw [hm]; exact k.entry.id, ?_, by rw [hm]; exact k.entry.isUncacheable,
    by rw [hm]; exact k.entry.inService, k.next_le, ?_, hpk ▸ held, ?_, ?_, ?_⟩
  · rw [hm]
    exact congrArg₂ Line.mk k.entry.blkAddr k.entry.isSecure
  · intro i hi hn
    refine k.heap i (fun hin => hi ?_) hn
    obtain ⟨t, ht, rfl⟩ := List.mem_map.mp hin
    exact k.mem t ht
  · intro hok
    rw [hpk, k.scheduled]
    exact once hok
  · intro hno
    obtain ⟨t, ts, hl, ht, hans⟩ := twice hno
    refine ⟨t, ts, hlist.trans hl, ?_⟩
    rw [k.scheduled]
    exact List.mem_map_of_mem (List.mem_filter.mpr ⟨ht, hans⟩)
  · intro hnone t ht
    rw [hlist, hdef] at ht
    obtain ⟨hin, hno⟩ := calm hnone t ht
    refine ⟨hin, k.heap t.pkt hno (hlt t.pkt ?_)⟩
    exact Multiset.mem_coe.mp (Multiset.mem_of_le (pkts_unlocked_le resp m)
      (Multiset.mem_coe.mpr (List.mem_map_of_mem hin)))

theorem notMem_ready_of_perm {m : Mshr} {ready left : List Target} (hnd : m.pkts.Nodup)
    (perm : (ready ++ left).Perm (unlockedTargets resp m)) {t : Target}
    (ht : t ∈ left ++ m.deferredTargets.list) :
    t ∈ unlockedTargets resp m ++ m.deferredTargets.list ∧ t.pkt ∉ ready.map Target.pkt := by
  have hall : ((ready ++ (left ++ m.deferredTargets.list)).map Target.pkt).Nodup := by
    have hp := (perm.append_right m.deferredTargets.list).map Target.pkt
    rw [List.append_assoc] at hp
    refine hp.nodup_iff.mpr (hnd.sublist ?_)
    exact ((unlockedTargets_sublist resp m).append (List.Sublist.refl _)).map Target.pkt
  rw [List.map_append, List.nodup_append] at hall
  refine ⟨?_, fun hin => hall.2.2 _ hin _ (List.mem_map_of_mem ht) rfl⟩
  rcases List.mem_append.mp ht with ht | ht
  · exact List.mem_append_left _ (perm.mem_iff.mp (List.mem_append_right _ ht))
  · exact List.mem_append_right _ ht

/-- If the targets of the run and those left in the list were in it before, up to
new packets, then so are those answered and those left, with the deferred ones. -/
theorem pktsOf_answered_le (f : Target → Bool) {ready left l : List Target} (d : List Target)
    {new : Multiset PacketId} (hle : pktsOf ready + pktsOf left ≤ pktsOf l + new) :
    pktsOf (ready.filter f) + pktsOf (left ++ d) ≤ pktsOf (l ++ d) + new := by
  calc pktsOf (ready.filter f) + pktsOf (left ++ d)
      = pktsOf (ready.filter f) + pktsOf left + pktsOf d := by rw [pktsOf_append, add_assoc]
    _ ≤ pktsOf ready + pktsOf left + pktsOf d :=
      add_le_add_left (add_le_add_left (pktsOf_sublist List.filter_sublist) _) _
    _ ≤ pktsOf l + new + pktsOf d := add_le_add_left hle _
    _ = pktsOf (l ++ d) + new := by
      rw [pktsOf_append]
      abel

theorem serviceMSHRTargets_serviced {h : Heap} {next : PacketId} {m : Mshr} {blk : Option Blk}
    {r : Loop} (hnd : m.pkts.Nodup) (hlt : ∀ i ∈ m.pkts, i < next)
    (hr : serviceMSHRTargets c o resp h next m blk = .ok r) : Serviced resp h next m blk r := by
  obtain ⟨ready, m', s, en, hd, hserv, hall, hrs, _⟩ := serviceMSHRTargets_ok hr
  have hsplit : Mshr.Split h _ _ ready m'.targets.list := Mshr.serviceable_split hserv
  obtain ⟨hndr, hmem⟩ := ready_of_serviceable (Mshr.nodup_targets hnd) hserv
  have hpkt : ∀ t ∈ ready, t.pkt ∈ m.pkts := fun t ht =>
    List.mem_map_of_mem (List.mem_append_left _ (hmem t ht))
  have hltr : ∀ t ∈ ready, t.pkt < next := fun t ht => hlt _ (hpkt t ht)
  have run := serviceAll_run hndr hltr hall
  have hmshr : r.mshr = s.mshr := by rw [hrs]
  have hnext : r.next = s.next := by rw [hrs]
  have k : Cut h next m ready m' r :=
    ⟨en, hd, by rw [hrs]; exact run.next, by rw [hrs]; exact run.scheduled,
      by rw [hrs]; exact run.heap, hpkt⟩
  cases hsplit with
  | gone hlock perm unlocked =>
    obtain ⟨hm, _⟩ := run.same fun t ht hl => unlocked t ht hl.1 hl.2
    have hone : pktsOf (ready.filter (answers h)) +
        pktsOf (m'.targets.list ++ m.deferredTargets.list) ≤
        pktsOf (unlockedTargets resp m ++ m.deferredTargets.list) + Multiset.Ico next r.next := by
      refine pktsOf_answered_le _ _ ?_
      rw [← pktsOf_perm perm, pktsOf_append]
      exact Multiset.le_add_right _ _
    refine k.serviced hlt (hmshr.trans hm) (le_trans (Multiset.le_add_left _ _) hone)
      (fun _ => hone) (fun hno => absurd ?_ hno) fun _ t ht => notMem_ready_of_perm hnd perm ht
    unfold LockServed
    rw [hlock]
    trivial
  | stays pre rest t hlock hready hleft hl locked unlocked =>
    subst hready
    have hserved : LockServed h resp m blk ↔
        (t.source = .fromCPU → useBlock resp m' blk = true ∧ pre.any (drops h) = false) := by
      rw [useBlock_congr en.isForward rfl]
      unfold LockServed
      rw [hlock]
    have hsome : Mshr.servicedLock h resp.cmd (unlockedTargets resp m) ≠ none := by
      rw [hlock]
      exact Option.some_ne_none _
    obtain ⟨served, unserved⟩ := serviceAll_lock hndr hltr unlocked hleft hall
    by_cases hused : lockedRead h t ∧ useBlock resp m' blk = true ∧ pre.any (drops h) = false
    · -- a fresh packet has taken the place of the locked read
      obtain ⟨hm, hn⟩ := served hused
      have hn' : r.next = next + 1 := hnext.trans hn
      have hone : pktsOf ((pre ++ [t]).filter (answers h)) +
          pktsOf ({ t with pkt := next } :: rest ++ m.deferredTargets.list) ≤
          pktsOf (unlockedTargets resp m ++ m.deferredTargets.list) +
            Multiset.Ico next r.next := by
        refine pktsOf_answered_le _ _ (le_of_eq ?_)
        rw [hl, hn', Ico_succ]
        simp only [pktsOf_append, pktsOf_cons, pktsOf_nil, add_zero]
        abel
      exact k.serviced hlt (hmshr.trans hm) (le_trans (Multiset.le_add_left _ _) hone)
        (fun _ => hone) (fun hno => absurd (hserved.mpr fun _ => hused.2) hno)
        fun hnone => absurd hnone hsome
    · -- the locked read is answered, if it is one of the CPU, and stays
      obtain ⟨hm, _⟩ := unserved hused
      have hleft' : m'.targets.list = t :: rest := hleft
      have hone : pktsOf (pre.filter (answers h)) +
          pktsOf (m'.targets.list ++ m.deferredTargets.list) ≤
          pktsOf (unlockedTargets resp m ++ m.deferredTargets.list) +
            Multiset.Ico next r.next := by
        refine pktsOf_answered_le _ _ ?_
        rw [hl, hleft', pktsOf_append]
        exact Multiset.le_add_right _ _
      refine k.serviced hlt (hmshr.trans hm) (le_trans (Multiset.le_add_left _ _) hone) ?_ ?_
        fun hnone => absurd hnone hsome
      · intro hok
        have hcpu : t.source ≠ .fromCPU := fun hc => hused ⟨⟨hc, locked⟩, hserved.mp hok hc⟩
        have hno : answers h t = false := by
          simp only [answers, hcpu, decide_false, Bool.false_and]
        rw [List.filter_append, List.filter_singleton, hno]
        exact (List.append_nil (pre.filter (answers h))).symm ▸ hone
      · intro hno
        have hcpu : t.source = .fromCPU := by
          by_contra hc
          exact hno (hserved.mpr fun h => absurd h hc)
        exact ⟨t, rest, hleft', List.mem_append_right pre List.mem_cons_self,
          lockedRead_answers ⟨hcpu, locked⟩⟩

/-! ## What a step changes -/

def mshrPkts (l : List Mshr) : Multiset PacketId := (l.flatMap Mshr.pkts : List PacketId)

@[simp] theorem mshrPkts_nil : mshrPkts [] = 0 := rfl

@[simp] theorem mshrPkts_cons (m : Mshr) (l : List Mshr) :
    mshrPkts (m :: l) = (m.pkts : Multiset PacketId) + mshrPkts l := by
  simp only [mshrPkts, List.flatMap_cons, Multiset.coe_add]

@[simp] theorem mshrPkts_append (l l' : List Mshr) :
    mshrPkts (l ++ l') = mshrPkts l + mshrPkts l' := by
  simp only [mshrPkts, List.flatMap_append, Multiset.coe_add]

theorem mshrPkts_perm {l l' : List Mshr} (h : l.Perm l') : mshrPkts l = mshrPkts l' :=
  Multiset.coe_eq_coe.mpr (h.flatMap_right Mshr.pkts)

def State.held (s : State) : Multiset PacketId := (s.writes : Multiset PacketId) + mshrPkts s.mshrs

/-- An MSHR in service waits for a response from below or for the write half of
a locked access. -/
def Waits (h : Heap) (outstanding : List ℕ) (m : Mshr) : Prop :=
  m.inService = true → m.id ∈ outstanding ∨ m.hasLockedRMWReadTarget h = true

theorem hasLockedRMWReadTarget_congr {h h' : Heap} {m m' : Mshr}
    (hl : m'.targets.list.head? = m.targets.list.head?)
    (hh : ∀ t ∈ m.targets.list.head?, SameLock (h t.pkt) (h' t.pkt)) :
    m'.hasLockedRMWReadTarget h' = m.hasLockedRMWReadTarget h := by
  unfold Mshr.hasLockedRMWReadTarget
  revert hl hh
  cases m'.targets.list <;> cases m.targets.list <;> intro hl hh
  · rfl
  · cases hl
  · cases hl
  · cases hl
    rw [Bool.eq_iff_iff, beq_iff_eq, beq_iff_eq]
    exact (hh _ rfl).1

/-- At most one entry of the MSHR queue is changed, removed or added. -/
inductive Replaces (s : State) : List Mshr → List Mshr → ℕ → Prop
  | same : Replaces s [] [] s.nextMshr
  | set (m m' : Mshr) (id : m'.id = m.id) (line : m'.line = m.line)
      (isUncacheable : m'.isUncacheable = m.isUncacheable) : Replaces s [m] [m'] s.nextMshr
  | drop (m : Mshr) : Replaces s [m] [] s.nextMshr
  | add (m : Mshr) (id : m.id = s.nextMshr)
      (unmatched : m.isUncacheable = false → findMatch s.mshrs m.line = none) :
      Replaces s [] [m] (s.nextMshr + 1)

/-- From `s` to `s'` the MSHRs `old` become `new` and the packets move. `extra`
are packets in flight, held by nobody before; `served` is the condition under
which nothing that is delivered stays behind. -/
structure Change (extra : Multiset PacketId) (served : Prop) (old new rest : List Mshr)
    (s s' : State) : Prop where
  before : s.mshrs.Perm (old ++ rest)
  after : s'.mshrs.Perm (new ++ rest)
  replaces : Replaces s old new s'.nextMshr
  next_le : s.next ≤ s'.next
  heap : ∀ i, i < s.next → i ∉ extra → i ∉ s.writes → i ∉ mshrPkts old → s'.heap i = s.heap i
  held : (s'.writes : Multiset PacketId) + mshrPkts new ≤
    s.writes + mshrPkts old + extra + Multiset.Ico s.next s'.next
  delivered : served → (s'.delivered : Multiset PacketId) + (s'.writes + mshrPkts new) ≤
    s.delivered + (s.writes + mshrPkts old) + extra + Multiset.Ico s.next s'.next
  outstanding : ∀ id ∈ s.outstanding, id ∉ old.map Mshr.id → id ∈ s'.outstanding
  waits : (∀ m ∈ old, Waits s.heap s.outstanding m) → ∀ m ∈ new, Waits s'.heap s'.outstanding m

def OtherLine (m m' : Mshr) : Prop :=
  m.isUncacheable = false → m'.isUncacheable = false → m.line ≠ m'.line

/-- The packets and the MSHRs are where they belong. -/
structure Owned (s : State) : Prop where
  ids : (s.mshrs.map Mshr.id).Nodup
  idLt : ∀ m ∈ s.mshrs, m.id < s.nextMshr
  lines : s.mshrs.Pairwise OtherLine
  held : Below s.held s.next
  waits : ∀ m ∈ s.mshrs, Waits s.heap s.outstanding m

/-- Nothing is held that has been delivered, and nothing was delivered twice. -/
def Delivered (s : State) : Prop := Below (s.delivered + s.held) s.next

theorem mem_mshrPkts {l : List Mshr} {m : Mshr} {i : PacketId} (hm : m ∈ l) (hi : i ∈ m.pkts) :
    i ∈ mshrPkts l :=
  Multiset.mem_coe.mpr (List.mem_flatMap.mpr ⟨m, hm, hi⟩)

theorem OtherLine.symm {m m' : Mshr} (h : OtherLine m m') : OtherLine m' m :=
  fun a b => (h b a).symm

theorem otherLine_of_findMatch {l : List Mshr} {m : Mshr}
    (hf : m.isUncacheable = false → findMatch l m.line = none) : ∀ x ∈ l, OtherLine m x := by
  intro x hx hm hu he
  have hno := List.find?_eq_none.mp (hf hm) x hx
  simp only [hu, Bool.not_false, Bool.true_and, beq_iff_eq] at hno
  exact hno he.symm

variable {extra : Multiset PacketId} {served : Prop} {old new rest : List Mshr} {s s' : State}

theorem Change.held_eq (ch : Change extra served old new rest s s') :
    s.held = s.writes + mshrPkts old + mshrPkts rest := by
  rw [State.held, mshrPkts_perm ch.before, mshrPkts_append, add_assoc]

theorem Change.held_le (ch : Change extra served old new rest s s') :
    s'.held ≤ s.held + extra + Multiset.Ico s.next s'.next := by
  rw [ch.held_eq, State.held, mshrPkts_perm ch.after, mshrPkts_append, ← add_assoc]
  refine le_trans (add_le_add_left ch.held _) (le_of_eq ?_)
  abel

theorem Change.delivered_le (ch : Change extra served old new rest s s') (hs : served) :
    (s'.delivered : Multiset PacketId) + s'.held ≤
      s.delivered + s.held + extra + Multiset.Ico s.next s'.next := by
  rw [ch.held_eq, State.held, mshrPkts_perm ch.after, mshrPkts_append, ← add_assoc, ← add_assoc]
  have hd := ch.delivered hs
  rw [← add_assoc] at hd
  refine le_trans (add_le_add_left hd _) (le_of_eq ?_)
  abel

theorem Change.frame (ch : Change extra served old new rest s s')
    (hx : Below (s.held + extra) s.next) {m : Mshr} (hm : m ∈ rest) {i : PacketId}
    (hi : i ∈ m.pkts) : s'.heap i = s.heap i := by
  have hr : i ∈ mshrPkts rest := mem_mshrPkts hm hi
  rw [ch.held_eq] at hx
  have hlt : i < s.next := hx.2 i (Multiset.mem_add.mpr (Or.inl (Multiset.mem_add.mpr (Or.inr hr))))
  have hn := hx.1
  simp only [Multiset.nodup_add, Multiset.disjoint_left, Multiset.mem_add] at hn
  obtain ⟨⟨_, _, h₁⟩, _, h₂⟩ := hn
  refine ch.heap i hlt (fun h => h₂ (Or.inr hr) h) (fun h => h₁ (Or.inl ?_) hr)
    (fun h => h₁ (Or.inr h) hr)
  exact Multiset.mem_coe.mpr h

theorem Replaces.ids {n : ℕ} (r : Replaces s old new n) (hb : s.mshrs.Perm (old ++ rest))
    (ho : Owned s) : ((new ++ rest).map Mshr.id).Nodup := by
  have hn := (hb.map Mshr.id).nodup_iff.mp ho.ids
  cases r with
  | same => exact hn
  | set m m' id _ _ =>
    simp only [List.singleton_append, List.map_cons] at hn ⊢
    rwa [id]
  | drop m =>
    simp only [List.singleton_append, List.map_cons, List.nodup_cons] at hn
    exact hn.2
  | add m id _ =>
    simp only [List.singleton_append, List.map_cons, List.nodup_cons]
    refine ⟨?_, hn⟩
    intro hm
    obtain ⟨x, hx, he⟩ := List.mem_map.mp hm
    exact absurd (ho.idLt x (hb.mem_iff.mpr hx)) (by rw [he, id]; exact Nat.lt_irrefl _)

theorem Replaces.idLt {n : ℕ} (r : Replaces s old new n) (hb : s.mshrs.Perm (old ++ rest))
    (ho : Owned s) : ∀ m ∈ new ++ rest, m.id < n := by
  have hlt : ∀ m ∈ old ++ rest, m.id < s.nextMshr := fun m hm => ho.idLt m (hb.mem_iff.mpr hm)
  intro x hx
  cases r with
  | same => exact hlt x hx
  | set m m' id _ _ =>
    rcases List.mem_cons.mp hx with rfl | hx
    · exact id ▸ hlt m List.mem_cons_self
    · exact hlt x (List.mem_cons_of_mem _ hx)
  | drop m => exact hlt x (List.mem_cons_of_mem _ hx)
  | add m id _ =>
    rcases List.mem_cons.mp hx with rfl | hx
    · exact id ▸ Nat.lt_succ_self _
    · exact Nat.lt_succ_of_lt (hlt x hx)

theorem Replaces.lines {n : ℕ} (r : Replaces s old new n) (hb : s.mshrs.Perm (old ++ rest))
    (ho : Owned s) : (new ++ rest).Pairwise OtherLine := by
  have hp : (old ++ rest).Pairwise OtherLine := (hb.pairwise_iff OtherLine.symm).mp ho.lines
  cases r with
  | same => exact hp
  | set m m' _ line unc =>
    simp only [List.singleton_append, List.pairwise_cons] at hp ⊢
    refine ⟨fun x hx a b => ?_, hp.2⟩
    exact line ▸ hp.1 x hx (unc ▸ a) b
  | drop m =>
    simp only [List.singleton_append, List.pairwise_cons] at hp
    exact hp.2
  | add m _ unmatched =>
    simp only [List.singleton_append, List.pairwise_cons]
    exact ⟨fun x hx => otherLine_of_findMatch unmatched x (hb.mem_iff.mpr hx), hp⟩

theorem Change.owned (ch : Change extra served old new rest s s')
    (hx : Below (s.held + extra) s.next) (ho : Owned s) : Owned s' := by
  refine ⟨?_, ?_, ?_, hx.step ch.next_le ch.held_le, ?_⟩
  · exact (ch.after.map Mshr.id).nodup_iff.mpr (ch.replaces.ids ch.before ho)
  · intro m hm
    exact ch.replaces.idLt ch.before ho m (ch.after.mem_iff.mp hm)
  · exact (ch.after.pairwise_iff OtherLine.symm).mpr (ch.replaces.lines ch.before ho)
  · intro m hm
    rcases List.mem_append.mp (ch.after.mem_iff.mp hm) with hm | hm
    · refine ch.waits (fun x hx => ho.waits x (ch.before.mem_iff.mpr ?_)) m hm
      exact List.mem_append_left _ hx
    · intro hin
      rcases ho.waits m (ch.before.mem_iff.mpr (List.mem_append_right _ hm)) hin with hout | hlock
      · refine Or.inl (ch.outstanding m.id hout fun hold => ?_)
        have hn := (ch.before.map Mshr.id).nodup_iff.mp ho.ids
        rw [List.map_append, List.nodup_append] at hn
        exact hn.2.2 _ hold _ (List.mem_map_of_mem hm) rfl
      · refine Or.inr (Eq.trans ?_ hlock)
        refine hasLockedRMWReadTarget_congr rfl fun t ht => ?_
        rw [ch.frame hx hm (Mshr.head_mem_pkts ht)]
        exact SameLock.refl _

theorem Change.isDelivered (ch : Change extra served old new rest s s') (hs : served)
    (hx : Below (s.delivered + s.held + extra) s.next) : Delivered s' :=
  hx.step ch.next_le (ch.delivered_le hs)

theorem Owned.pkts (ho : Owned s) {m : Mshr} (hm : m ∈ s.mshrs) :
    m.pkts.Nodup ∧ ∀ i ∈ m.pkts, i < s.next := by
  have hle : (m.pkts : Multiset PacketId) ≤ s.held := by
    obtain ⟨pre, post, hl⟩ := List.append_of_mem hm
    rw [State.held, hl, mshrPkts_append, mshrPkts_cons]
    refine le_trans ?_ (Multiset.le_add_left _ _)
    exact le_trans (Multiset.le_add_right _ _) (Multiset.le_add_left _ _)
  have hb := ho.held.le hle
  exact ⟨Multiset.coe_nodup.mp hb.1, fun i hi => hb.2 i (Multiset.mem_coe.mpr hi)⟩

theorem Owned.split (ho : Owned s) {m : Mshr} (hm : m ∈ s.mshrs) :
    ∃ rest, s.mshrs.Perm ([m] ++ rest) ∧
      (∀ m' : Mshr, m'.id = m.id → (setMshr s.mshrs m').Perm ([m'] ++ rest)) ∧
      (eraseMshr s.mshrs m.id).Perm ([] ++ rest) :=
  keyed_split ho.ids hm

theorem eq_of_mem_setMshr {l : List Mshr} {m m' : Mshr} (h : m' ∈ setMshr l m)
    (hid : m'.id = m.id) : m' = m := by
  obtain ⟨x, _, rfl⟩ := List.mem_map.mp h
  by_cases hx : x.id = m.id
  · exact if_pos hx
  · rw [if_neg hx] at hid
    exact absurd hid hx

theorem mem_setMshr {l : List Mshr} {m m' : Mshr} (h : m ∈ l) (hid : m'.id = m.id) :
    m' ∈ setMshr l m' :=
  List.mem_map.mpr ⟨m, h, if_pos hid.symm⟩

theorem ne_of_mem_eraseMshr {l : List Mshr} {id : ℕ} {m : Mshr} (h : m ∈ eraseMshr l id) :
    m.id ≠ id :=
  of_decide_eq_true (List.mem_filter.mp h).2

/-! ### Responses -/

/-- `LockServed` at the call of `serviceMSHRTargets`, with the block after the
fill and the targets after the promotion. -/
def RespServed (c : Params) (e : Environment) (s : State) (m : Mshr) (resp : Packet) : Prop :=
  match responseBlock c e s m resp with
  | .error _ => True
  | .ok f =>
    match promoteTargets s.heap resp m f.2.2 with
    | .error _ => True
    | .ok p => LockServed s.heap resp p.1 p.2

instance (c : Params) (e : Environment) (s : State) (m : Mshr) (resp : Packet) :
    Decidable (RespServed c e s m resp) := by
  unfold RespServed
  split
  · infer_instance
  · split <;> infer_instance

theorem promoteTargets_spec {h : Heap} {m : Mshr} {blk : Option Blk} {p : Mshr × Option Blk}
    (hr : promoteTargets h resp m blk = .ok p) : Mshr.Promoted m p.1 := by
  unfold promoteTargets at hr
  split at hr
  · cases hr
    exact Mshr.Promoted.refl m
  · simp only [bind_ok_iff, pure_ok_iff] at hr
    obtain ⟨m₁, h₁, m₂, h₂, rfl⟩ := hr
    have readable : Mshr.Promoted m m₁ := by
      split at h₁
      · exact Mshr.promoteReadable_spec h₁
      · cases h₁
        exact Mshr.Promoted.refl m
    have writable : Mshr.Promoted m₁ m₂ := by
      generalize (Option.any Blk.isWritable _ && _) = b at h₂
      cases b with
      | true => exact Mshr.promoteWritable_spec h₂
      | false =>
        cases h₂
        exact Mshr.Promoted.refl m₁
    exact readable.trans writable

theorem finishResp_spec {l : Line} {tags : Tags} {temp : Bool} {r : Loop}
    (hr : finishResp c s l tags temp r = .ok s') :
    (s'.heap = r.heap ∧ s'.next = r.next ∧ s'.delivered = s.delivered ++ r.scheduled ∧
      s'.writes = s.writes ∧ s'.outstanding = s.outstanding ∧ s'.nextMshr = s.nextMshr) ∧
    ((∃ m', s'.mshrs = setMshr s.mshrs m' ∧ Mshr.Promoted r.mshr { m' with
        inService := r.mshr.inService } ∧
        (m'.inService = true → m'.hasLockedRMWReadTarget r.heap = true)) ∨
      (s'.mshrs = eraseMshr s.mshrs r.mshr.id ∧ r.mshr.pkts = [])) := by
  unfold finishResp at hr
  simp only at hr
  split at hr
  · next hl =>
    cases hr
    exact ⟨⟨rfl, rfl, rfl, rfl, rfl, rfl⟩, Or.inl ⟨r.mshr, rfl, Mshr.Promoted.refl _, fun _ => hl⟩⟩
  · simp only [bind_ok_iff] at hr
    obtain ⟨_, _, hr⟩ := hr
    split at hr
    · next m hm =>
      simp only [bind_ok_iff, ensure_ok_iff, exists_const, pure_ok_iff] at hr
      obtain ⟨_, rfl⟩ := hr
      refine ⟨⟨rfl, rfl, rfl, rfl, rfl, rfl⟩,
        Or.inl ⟨_, rfl, ?_, fun h => absurd h Bool.false_ne_true⟩⟩
      have hp := Mshr.promoteDeferredTargets_some hm
      exact ⟨⟨hp.entry.id, hp.entry.blkAddr, hp.entry.isSecure, hp.entry.isUncacheable, rfl,
        hp.entry.isForward, hp.entry.wasWholeLineWrite⟩, hp.moved⟩
    · next hm =>
      simp only [bind_ok_iff, pure_ok_iff] at hr
      obtain ⟨_, _, rfl⟩ := hr
      refine ⟨⟨rfl, rfl, rfl, rfl, rfl, rfl⟩, Or.inr ⟨rfl, ?_⟩⟩
      obtain ⟨h₁, h₂⟩ := Mshr.promoteDeferredTargets_none hm
      simp only [Mshr.pkts, h₁, h₂, List.append_nil, List.map_nil]

/-- What is left of the MSHR has the targets that the service has left. -/
theorem finishResp_lists {l : Line} {tags : Tags} {temp : Bool} {r : Loop} {x : Mshr}
    (hr : finishResp c s l tags temp r = .ok s') (hx : x ∈ s'.mshrs) (hid : x.id = r.mshr.id) :
    x.targets.list ++ x.deferredTargets.list =
      r.mshr.targets.list ++ r.mshr.deferredTargets.list := by
  rcases (finishResp_spec hr).2 with ⟨m', hmshrs, hprom, _⟩ | ⟨hmshrs, _⟩
  · have hid' : m'.id = r.mshr.id := hprom.entry.id
    rw [eq_of_mem_setMshr (hmshrs ▸ hx) (hid.trans hid'.symm)]
    exact hprom.lists
  · exact absurd hid (ne_of_mem_eraseMshr (hmshrs ▸ hx))

theorem finishResp_pkts {l : Line} {tags : Tags} {temp : Bool} {r : Loop} {x : Mshr}
    (hr : finishResp c s l tags temp r = .ok s') (hx : x ∈ s'.mshrs) (hid : x.id = r.mshr.id) :
    x.pkts = r.mshr.pkts :=
  congrArg (List.map Target.pkt) (finishResp_lists hr hx hid)

theorem recvMSHRResp_ok {m : Mshr} (hr : recvMSHRResp c e s m resp = .ok s') :
    ∃ (f : Tags × Bool × Option Blk) (p : Mshr × Option Blk) (r : Loop),
      promoteTargets s.heap resp m f.2.2 = .ok p ∧
      serviceMSHRTargets c e.toSurroundings resp s.heap s.next p.1 p.2 = .ok r ∧
      finishResp c s (resp.line c.blkSize) f.1 f.2.1 r = .ok s' ∧
      (RespServed c e s m resp ↔ LockServed s.heap resp p.1 p.2) ∧
      ∃ t ts, m.targets.list = t :: ts := by
  simp only [recvMSHRResp, bind_ok_iff, ensure_ok_iff, exists_const, mapError_ok_iff] at hr
  obtain ⟨_, t, ht, _, f, hf, p, hp, r, hs, hfin⟩ := hr
  refine ⟨f, p, r, hp, hs, hfin, ?_, t, Mshr.front_ok ht⟩
  simp only [RespServed, hf, hp]

/-- A response: `out` are the requests that stay outstanding. -/
theorem recvMSHRResp_change {m : Mshr} (out : List ℕ) (ho : Owned s) (hm : m ∈ s.mshrs)
    (hout : ∀ id ∈ s.outstanding, id ≠ m.id → id ∈ out)
    (hr : recvMSHRResp c e { s with outstanding := out } m resp = .ok s') :
    ∃ new rest, Change 0 (RespServed c e s m resp) [m] new rest s s' := by
  obtain ⟨f, p, r, hp, hs, hfin, hserved, _⟩ := recvMSHRResp_ok hr
  have hserved : RespServed c e s m resp ↔ LockServed s.heap resp p.1 p.2 := hserved
  have hpk := (promoteTargets_spec hp).pkts
  have hen := (promoteTargets_spec hp).entry
  obtain ⟨hnd, hlt⟩ := ho.pkts hm
  have sv := serviceMSHRTargets_serviced (hpk ▸ hnd) (hpk ▸ hlt) hs
  have hline : r.mshr.line = m.line := sv.line.trans (congrArg₂ Line.mk hen.blkAddr hen.isSecure)
  obtain ⟨⟨e1, e2, e3, e4, e5, e6⟩, hcases⟩ := finishResp_spec hfin
  obtain ⟨rest, hbefore, hset, herase⟩ := ho.split hm
  have hbound : pktsOf (unlockedTargets resp p.1 ++ p.1.deferredTargets.list) ≤
      (m.pkts : Multiset PacketId) := hpk ▸ pkts_unlocked_le resp p.1
  -- the packets that are left with the MSHR, in all cases
  have build : ∀ new : List Mshr, mshrPkts new = r.mshr.pkts → s'.mshrs.Perm (new ++ rest) →
      Replaces s [m] new s.nextMshr → (∀ m' ∈ new, Waits s'.heap s'.outstanding m') →
      Change 0 (RespServed c e s m resp) [m] new rest s s' := by
    intro new hnew hafter hrep hwait
    refine ⟨hbefore, hafter, e6 ▸ hrep, e2 ▸ sv.next_le, ?_, ?_, ?_, ?_, fun _ => hwait⟩
    · intro i hi _ _ hno
      rw [e1]
      refine sv.heap i (fun hin => hno ?_) hi
      exact mem_mshrPkts List.mem_cons_self (hpk ▸ hin)
    · rw [hnew, e4, e2, mshrPkts_cons, mshrPkts_nil, add_zero, add_zero, add_assoc]
      exact add_le_add_right (le_trans sv.held (add_le_add_left hbound _)) _
    · intro hok
      rw [hnew, e3, e4, e2, mshrPkts_cons, mshrPkts_nil, add_zero, add_zero, ← Multiset.coe_add]
      have hone := le_trans (sv.once (hserved.mp hok)) (add_le_add_left hbound _)
      calc ((s.delivered : Multiset PacketId) + r.scheduled) + (s.writes + r.mshr.pkts)
          = s.delivered + s.writes + (r.scheduled + r.mshr.pkts) := by abel
        _ ≤ s.delivered + s.writes + (m.pkts + Multiset.Ico s.next r.next) :=
            add_le_add_right hone _
        _ = s.delivered + (s.writes + m.pkts) + Multiset.Ico s.next r.next := by abel
    · intro id hid hne
      rw [e5]
      refine hout id hid fun he => hne ?_
      rw [he]
      exact List.mem_cons_self
  rcases hcases with ⟨m', hmshrs, hprom, hlock⟩ | ⟨hmshrs, hnone⟩
  · have hid : m'.id = m.id := hprom.entry.id.trans (sv.id.trans hen.id)
    refine ⟨[m'], rest, build [m'] ?_ (hmshrs ▸ hset m' hid) (.set m m' hid ?_ ?_) ?_⟩
    · rw [mshrPkts_cons, mshrPkts_nil, add_zero]
      exact congrArg _ hprom.pkts
    · exact (congrArg₂ Line.mk hprom.entry.blkAddr hprom.entry.isSecure).trans hline
    · exact hprom.entry.isUncacheable.trans (sv.isUncacheable.trans hen.isUncacheable)
    · intro x hx hin
      rw [List.mem_singleton.mp hx] at hin ⊢
      exact Or.inr (e1 ▸ hlock hin)
  · have hid : r.mshr.id = m.id := sv.id.trans hen.id
    rw [hid] at hmshrs
    refine ⟨[], rest, build [] ?_ (hmshrs ▸ herase) (.drop m)
      fun _ hx => absurd hx List.not_mem_nil⟩
    rw [hnone]
    rfl

end PnmCompaction.Cache
