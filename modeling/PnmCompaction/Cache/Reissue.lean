import PnmCompaction.Cache.Answered
import PnmCompaction.Cache.Steps

/-!
# Sending for a target that has been answered

An MSHR can come up for sending while its first target is a response already.
`BaseCache::sendMSHRQueuePacket` (base.cc 1991-2030) means to send a plain read
in its place, so that the response can take the target out of the MSHR. The test
for an answered target stands behind `createMissPacket`, which looks at the same
packet first and asserts that it needs a response.
-/

namespace PnmCompaction.Cache

open PnmCompaction.Lib.Checked PnmCompaction.Lib.Exec

variable {c : Params} {e : Environment} {o : Surroundings} {resp : Packet} {inv : Bool}

/-! ## The send -/

/-- `createMissPacket` leaves the packet to be forwarded. -/
def PassedThrough (p : Packet) (blk : Option Blk) : Prop :=
  p.req.isUncacheable = true ∨ p.cmd.isClean = true ∨
    (p.cmd = .upgradeResp ∧ blkValid blk = false)

instance (p : Packet) (blk : Option Blk) : Decidable (PassedThrough p blk) :=
  inferInstanceAs (Decidable (_ ∨ _))

/-- No assertion fails, whether or not the request is accepted below; it is a
read, and the MSHR is in service for its response. -/
structure Reissued (c : Params) (e : Environment) (s : State) (m : Mshr) (t : Target) : Prop where
  unasserted : ∀ accepted, ∃ s', baseSend c e s m accepted = .ok s'
  read : ∃ miss cmd, createMissPacket c (s.heap t.pkt) (s.tags.blocks m.line)
      m.targets.needsWritable m.targets.isWholeLineWrite = .ok miss ∧
    sentCommand (s.heap t.pkt) miss = .ok cmd ∧ cmd.isRequest = true ∧ cmd.isRead = true
  waits : ∀ s', baseSend c e s m true = .ok s' → m.id ∈ s'.outstanding ∧
    ∃ m' ∈ s'.mshrs, m'.id = m.id ∧ m'.targets = m.targets ∧ m'.inService = true ∧
      m'.isForward = true

theorem isResponse_spec {cmd : MemCmd} (h : cmd.isResponse = true) :
    cmd.isRequest = false ∧ cmd.isEviction = false ∧ cmd.needsResponse = false ∧
      (cmd == .invalidateReq) = false ∧ (cmd.isUpgrade = true ↔ cmd = .upgradeResp) := by
  revert h
  cases cmd <;> decide

theorem createMissPacket_of_response {p : Packet} {blk : Option Blk} {w l : Bool}
    (hp : p.cmd.isResponse = true) :
    createMissPacket c p blk w l =
      if PassedThrough p blk then .ok none else .error .missNoResponse := by
  obtain ⟨_, hev, hneeds, hinv, hup⟩ := isResponse_spec hp
  have hcond : (p.req.isUncacheable || (!blkValid blk && p.cmd.isUpgrade) ||
      p.cmd == .invalidateReq || p.cmd.isClean) = true ↔ PassedThrough p blk := by
    rw [hinv, Bool.or_false, Bool.or_eq_true, Bool.or_eq_true, Bool.and_eq_true, Bool.not_eq_true',
      hup, PassedThrough]
    tauto
  by_cases hpass : PassedThrough p blk
  · rw [if_pos hpass]
    simp only [createMissPacket, hev, ensure, hcond, if_pos hpass]
    rfl
  · rw [if_neg hpass]
    simp only [createMissPacket, hev, hneeds, ensure, hcond, if_neg hpass]
    rfl

theorem baseSend_of_response {s : State} {m : Mshr} {t : Target} {rest : List Target}
    {accepted : Bool} (hl : m.targets.list = t :: rest)
    (hp : (s.heap t.pkt).cmd.isResponse = true) :
    baseSend c e s m accepted =
      if PassedThrough (s.heap t.pkt) (s.tags.blocks m.line) then
        if accepted then do
          let m ← { m with isForward := true }.markInService (!e.sentShared && e.sentResponding)
          pure { s with mshrs := setMshr s.mshrs m, outstanding := m.id :: s.outstanding }
        else .ok { s with mshrs := setMshr s.mshrs { m with isForward := true } }
      else .error .missNoResponse := by
  have hfront : m.front = .ok t := by rw [Mshr.front, hl]
  have hreq : (s.heap t.pkt).isRequest = false := (isResponse_spec hp).1
  have hsent : sentCommand (s.heap t.pkt) none = .ok .readReq := by
    rw [sentCommand, hreq]
    rfl
  unfold baseSend
  rw [hfront]
  show (createMissPacket c (s.heap t.pkt) (s.tags.blocks m.line) _ _ >>= _) = _
  rw [createMissPacket_of_response hp]
  split
  · show (sentCommand (s.heap t.pkt) none >>= _) = _
    rw [hsent]
    cases accepted <;> rfl
  · rfl

/-- The request for an answered target is sent exactly if its packet would be
forwarded unchanged. -/
theorem reissued_iff {s : State} {m : Mshr} {t : Target} {rest : List Target} (hm : m ∈ s.mshrs)
    (hs : m.inService = false) (hl : m.targets.list = t :: rest)
    (hp : (s.heap t.pkt).cmd.isResponse = true) :
    Reissued c e s m t ↔ PassedThrough (s.heap t.pkt) (s.tags.blocks m.line) := by
  constructor
  · intro h
    obtain ⟨s', hs'⟩ := h.unasserted false
    rw [baseSend_of_response hl hp] at hs'
    split at hs'
    · next hpass => exact hpass
    · cases hs'
  · intro hpass
    have hmark : ({ m with isForward := true } : Mshr).markInService
        (!e.sentShared && e.sentResponding) = .ok { m with
          isForward := true
          inService := true
          pendingModified := m.targets.needsWritable || (!e.sentShared && e.sentResponding)
          postInvalidate := false
          postDowngrade := false
          wasWholeLineWrite := m.targets.isWholeLineWrite } := by
      simp only [Mshr.markInService, hs, ensure]
      rfl
    refine ⟨?_, ⟨none, .readReq, ?_, ?_, rfl, rfl⟩, ?_⟩
    · intro accepted
      rw [baseSend_of_response hl hp, if_pos hpass, hmark]
      cases accepted
      · exact ⟨_, rfl⟩
      · exact ⟨_, rfl⟩
    · rw [createMissPacket_of_response hp, if_pos hpass]
    · rw [sentCommand, show (s.heap t.pkt).isRequest = false from (isResponse_spec hp).1]
      rfl
    · intro s' hs'
      rw [baseSend_of_response hl hp, if_pos hpass, hmark] at hs'
      cases hs'
      exact ⟨List.mem_cons_self, _, mem_setMshr hm rfl, rfl, rfl, rfl, rfl⟩

/-! ## The response -/

/-- A response to a plain read: data, with or without the line being taken away,
or an error. -/
def AnswersRead (cmd : MemCmd) : Prop :=
  cmd = .readResp ∨ cmd = .readRespWithInvalidate ∨ (cmd.isError = true ∧ cmd.isWrite = false)

theorem AnswersRead.spec {cmd : MemCmd} (h : AnswersRead cmd) :
    cmd.isResponse = true ∧ cmd.isClean = false ∧ cmd ≠ .lockedRMWWriteResp ∧
      cmd ≠ .upgradeFailResp := by
  revert h
  unfold AnswersRead
  cases cmd <;> decide

/-- The MSHR is in service for the read that was sent in place of `t`. -/
structure Resent (h : Heap) (m : Mshr) (t : Target) (rest : List Target) : Prop where
  inService : m.inService = true
  isForward : m.isForward = true
  first : m.targets.list = t :: rest
  stale : answered h t

/-- The target is gone and was not handed to the CPU side; the MSHR is gone too,
or due to be sent for targets that are left. -/
structure Retired (s s' : State) (m : Mshr) (t : Target) : Prop where
  undelivered : ∃ ds, s'.delivered = s.delivered ++ ds ∧ t.pkt ∉ ds
  removed : ∀ x ∈ s'.mshrs, x.id = m.id → t.pkt ∉ x.pkts
  settled : ∀ x ∈ s'.mshrs, x.id = m.id → x.inService = false ∧ x.targets.list ≠ []

/-- A locked read that the response has not answered becomes the first target:
the first one of the CPU behind a target that took the whole of an invalidating
response, or a saved snoop. -/
def lockWaits (h : Heap) (cmd : MemCmd) (behind : List Target) : Bool :=
  if cmd = .readRespWithInvalidate then
    (behind.filter (·.source = .fromCPU)).head?.any fun u => (h u.pkt).cmd == .lockedRMWReadReq
  else (Mshr.lockAt h behind).any fun r => decide (r.2.source ≠ .fromCPU)

/-- `lockWaits` behind the first target, after the promotions of base.cc
642-665. -/
def lockLeft (c : Params) (s : State) (m : Mshr) (resp : Packet) : Bool :=
  match promoteTargets s.heap resp m (s.tags.blocks (resp.line c.blkSize)) with
  | .error _ => false
  | .ok p => lockWaits s.heap resp.cmd p.1.targets.list.tail

theorem serviceAll_forwarded {s s' : Loop} {ts : List Target} (hlt : ∀ t ∈ ts, t.pkt < s.next)
    (hu : useBlock resp s.mshr s.blk = false) (h : serviceAll c o resp inv s ts = .ok s') :
    s'.mshr = s.mshr := by
  induction ts generalizing s with
  | nil =>
    cases h
    rfl
  | cons t ts ih =>
    simp only [serviceAll, bind_ok_iff, mapError_ok_iff] at h
    obtain ⟨s₁, h₁, h⟩ := h
    obtain ⟨a, _⟩ := serviceTarget_turn (hlt t List.mem_cons_self) h₁
    obtain ⟨hm, hn⟩ := a.same fun hl => Bool.false_ne_true (hu.symm.trans hl.2)
    have hu₁ : useBlock resp s₁.mshr s₁.blk = false := by rw [a.useBlock, hu, Bool.false_and]
    exact (ih (fun u hin => hn ▸ hlt u (List.mem_cons_of_mem t hin)) hu₁ h).trans hm

theorem handleSnoop_locked {p : Packet} {blk : Option Blk} {d pi : Bool} {r : SnoopEnd}
    (hc : p.cmd = .lockedRMWReadReq) (h : handleSnoop c o p blk d pi = .ok r) :
    r.pkt.cmd = .lockedRMWReadReq := by
  simp only [handleSnoop, bind_ok_iff, ensure_ok_iff, exists_const] at h
  obtain ⟨_, _, q, hq, h⟩ := h
  have hq' : q.cmd = .lockedRMWReadReq := (snoopAbove_spec hq).cmd.trans hc
  have miss : ∀ b, handleSnoop.snoopMiss d q b = .ok r → r.pkt.cmd = .lockedRMWReadReq := by
    intro b hb
    simp only [handleSnoop.snoopMiss, bind_ok_iff, ensure_ok_iff, exists_const, pure_ok_iff] at hb
    obtain ⟨_, _, rfl⟩ := hb
    exact hq'
  rw [hq', if_neg (by decide)] at h
  rcases blk with _ | b
  · exact miss none h
  · simp only at h
    split at h
    · -- the block is there: a read that needs a writable copy fails an assertion
      simp only [snoopHit, hq', bind_ok_iff, ensure_ok_iff, exists_const] at h
      obtain ⟨_, h⟩ := h
      rw [if_neg (by decide), bind_ok_iff] at h
      obtain ⟨_, hno, _⟩ := h
      exact absurd (ensure_ok_iff.mp hno) (by decide)
    · exact miss (some b) h

theorem responseFor_unlocked {m : Mshr} {p q : Packet} (hc : p.cmd = .lockedRMWReadReq)
    (h : responseFor resp inv m p = .ok q) : q.cmd ≠ .lockedRMWReadReq := by
  simp only [responseFor, bind_ok_iff] at h
  obtain ⟨q₁, h₁, q₂, h₂, h₃⟩ := h
  have hq₁ : q₁.cmd = .lockedRMWReadResp := by
    simp only [Packet.makeResponse, bind_ok_iff, ensure_ok_iff, exists_const, pure_ok_iff] at h₁
    obtain ⟨_, _, rfl⟩ := h₁
    rw [hc]
    rfl
  have hq₂ : q₂.cmd ≠ .lockedRMWReadReq := by
    split at h₂
    · next herr =>
      simp only [Packet.copyError, bind_ok_iff, ensure_ok_iff, exists_const, pure_ok_iff] at h₂
      obtain ⟨_, rfl⟩ := h₂
      rintro he
      rw [show resp.cmd = .lockedRMWReadReq from he] at herr
      cases herr
    · cases h₂
      rw [hq₁]
      decide
  split at h₃
  · simp only [bind_ok_iff, pure_ok_iff] at h₃
    obtain ⟨post, _, rfl⟩ := h₃
    split
    · exact MemCmd.noConfusion
    · exact hq₂
  · cases h₃
    exact hq₂

/-- A locked read in its own turn: the CPU's is answered with what came back, a
saved snoop stays what it is. -/
theorem serviceTarget_lock {s s' : Loop} {u : Target} (hc : (s.heap u.pkt).cmd = .lockedRMWReadReq)
    (hn : u.pkt < s.next) (h : serviceTarget c o resp inv s u = .ok s') :
    (s'.heap u.pkt).cmd = .lockedRMWReadReq ↔ u.source ≠ .fromCPU := by
  unfold serviceTarget at h
  split at h
  · next hsrc =>
    refine iff_of_false ?_ (fun hne => hne hsrc)
    simp only [serviceCPU, hc] at h
    rw [if_neg (by decide)] at h
    simp only [bind_ok_iff] at h
    obtain ⟨_, _, s₁, h₁, h₂⟩ := h
    obtain ⟨_, _, hh⟩ := satisfyTarget_turn (s := { s with fromCore := true }) hsrc hn h₁
    have hc₁ : (s₁.heap u.pkt).cmd = .lockedRMWReadReq := hh.cmd.trans hc
    simp only [respondTo, Packet.isRequest, hc₁] at h₂
    rw [if_pos (by decide)] at h₂
    simp only [bind_ok_iff, pure_ok_iff] at h₂
    obtain ⟨q, hq, rfl⟩ := h₂
    dsimp only
    rw [Function.update_self]
    exact responseFor_unlocked hc₁ hq
  · simp only [servicePrefetcher, hc, bind_ok_iff, ensure_ok_iff, exists_const] at h
    exact absurd h.1 (by decide)
  · next hsrc =>
    refine iff_of_true ?_ (by rw [hsrc]; decide)
    simp only [serviceSnoop, bind_ok_iff, ensure_ok_iff, exists_const, pure_ok_iff] at h
    obtain ⟨_, post, _, _, r, hr, rfl⟩ := h
    dsimp only
    rw [Function.update_self]
    exact handleSnoop_locked hc hr

theorem splitLocked_of_unlocked {h : Heap} {l : List Target} (hno : Mshr.lockAt h l = none) :
    Mshr.splitLocked h l = (l, []) := by
  induction l with
  | nil => rfl
  | cons t ts ih =>
    rw [Mshr.lockAt] at hno
    split at hno
    · cases hno
    · next hl => rw [Mshr.splitLocked, if_neg hl, ih (Option.map_eq_none_iff.mp hno)]

/-- The lists of a response that finds an answered target first. -/
theorem serviceable_resent {h : Heap} {cmd : MemCmd} {t : Target} {behind ready left : List Target}
    (ha : answered h t) (hr : Mshr.serviceable h cmd (t :: behind) = .ok (ready, left)) :
    if cmd = .readRespWithInvalidate then
      ready = t :: behind.filter (·.source ≠ .fromCPU) ∧ left = behind.filter (·.source = .fromCPU)
    else ready = t :: (Mshr.splitLocked h behind).1 ∧ left = (Mshr.splitLocked h behind).2 := by
  have hl : (h t.pkt).cmd ≠ .lockedRMWReadReq := ha.cmd_ne rfl
  unfold Mshr.serviceable at hr
  split at hr
  · next hc =>
    rw [if_pos hc]
    simp only [bind_ok_iff, ensure_ok_iff, exists_const] at hr
    obtain ⟨_, hr⟩ := hr
    rw [if_neg hl] at hr
    simp only [bind_ok_iff, ensure_ok_iff, exists_const, pure_ok_iff, Prod.mk.injEq] at hr
    exact ⟨hr.2.1.symm, hr.2.2.symm⟩
  · next hc =>
    rw [if_neg hc]
    rw [Mshr.splitLocked, if_neg hl] at hr
    cases hr
    exact ⟨rfl, rfl⟩

theorem splitLocked_left_sublist (h : Heap) (l : List Target) :
    (Mshr.splitLocked h l).2.Sublist l := by
  induction l with
  | nil => exact List.Sublist.refl _
  | cons t ts ih =>
    rw [Mshr.splitLocked]
    split
    · exact List.Sublist.refl _
    · exact ih.trans (List.sublist_cons_self t ts)

theorem serviceAll_last_lock {s s' : Loop} {pre : List Target} {u : Target}
    (hnd : ((pre ++ [u]).map Target.pkt).Nodup) (hlt : ∀ x ∈ pre ++ [u], x.pkt < s.next)
    (hc : (s.heap u.pkt).cmd = .lockedRMWReadReq)
    (h : serviceAll c o resp inv s (pre ++ [u]) = .ok s') :
    (s'.heap u.pkt).cmd = .lockedRMWReadReq ↔ u.source ≠ .fromCPU := by
  obtain ⟨s₁, h₁, h₂⟩ := serviceAll_append.mp h
  rw [List.map_append, List.nodup_append] at hnd
  obtain ⟨hndp, _, hdis⟩ := hnd
  have hu : u.pkt < s.next := hlt u (List.mem_append_right pre List.mem_cons_self)
  have r := serviceAll_run hndp (fun x hx => hlt x (List.mem_append_left _ hx)) h₁
  have hkeep : s₁.heap u.pkt = s.heap u.pkt :=
    r.heap u.pkt (fun hin => hdis _ hin _ List.mem_cons_self rfl) hu
  simp only [serviceAll, bind_ok_iff, mapError_ok_iff, pure_ok_iff, exists_eq_right] at h₂
  exact serviceTarget_lock (hkeep ▸ hc) (Nat.lt_of_lt_of_le hu r.next) h₂

/-- Which target is first when the loop is through, and whether it is a locked
read then. -/
theorem lock_after_service {h : Heap} {m m' : Mshr} {s s' : Loop} {t : Target}
    {behind ready : List Target} (hs : s.heap = h) (hnd : m.pkts.Nodup)
    (hlt : ∀ i ∈ m.pkts, i < s.next) (hun : unlockedTargets resp m = t :: behind)
    (ha : answered h t) (hndr : (ready.map Target.pkt).Nodup) (hltr : ∀ x ∈ ready, x.pkt < s.next)
    (hsv : Mshr.serviceable h resp.cmd (t :: behind) = .ok (ready, m'.targets.list))
    (hloop : serviceAll c o resp inv s ready = .ok s') :
    m'.hasLockedRMWReadTarget s'.heap = lockWaits h resp.cmd behind := by
  have hlists := serviceable_resent ha hsv
  have hnot : (h t.pkt).cmd ≠ .lockedRMWReadReq := ha.cmd_ne rfl
  have hsplit := Mshr.serviceable_split hsv
  have run := serviceAll_run hndr hltr hloop
  unfold Mshr.servicedLock at hsplit
  unfold lockWaits
  split at hlists
  · next hc =>
    -- the targets of the CPU behind the first are kept, and their packets with them
    rw [if_pos hc] at hsplit ⊢
    rw [List.take_succ_cons, List.take_zero, Mshr.lockAt, if_neg hnot] at hsplit
    cases hsplit with
    | gone _ perm _ =>
      rw [← hlists.2]
      unfold Mshr.hasLockedRMWReadTarget
      split
      · next hl => rw [hl]; rfl
      · next u us hl =>
        have hu : u ∈ m'.targets.list ++ m.deferredTargets.list := by
          rw [hl]
          exact List.mem_append_left _ List.mem_cons_self
        obtain ⟨hin, hno⟩ := notMem_ready_of_perm hnd (hun.symm ▸ perm) hu
        have hlt' : u.pkt < s.next := by
          refine hlt _ (List.mem_map_of_mem ?_)
          exact ((unlockedTargets_sublist resp m).append (List.Sublist.refl _)).subset hin
        rw [run.heap u.pkt hno hlt', hl, hs, List.head?_cons, Option.any_some]
    | stays _ _ _ hlock => cases hlock
  · next hc =>
    rw [if_neg hc] at hsplit ⊢
    rw [Mshr.lockAt, if_neg hnot] at hsplit
    cases hlock : Mshr.lockAt h behind with
    | none =>
      rw [splitLocked_of_unlocked hlock] at hlists
      rw [Mshr.hasLockedRMWReadTarget, hlists.2]
      rfl
    | some lock =>
      rw [hlock] at hsplit
      cases hsplit with
      | gone hnone => cases hnone
      | stays pre rest u hsome hready hleft _ locked _ =>
        cases hsome
        subst hready hs
        have hfirst : m'.targets.list = lock.2 :: rest := hleft
        rw [Mshr.hasLockedRMWReadTarget, hfirst, Bool.eq_iff_iff, beq_iff_eq,
          serviceAll_last_lock hndr hltr locked hloop, Option.any_some, decide_eq_true_iff]

/-- What a call that finds an answered target first leaves of it, and whether a
locked read comes up behind it. -/
structure Dropped (h : Heap) (m : Mshr) (t : Target) (behind : List Target) (cmd : MemCmd)
    (r : Loop) : Prop where
  entry : Mshr.SameEntry m r.mshr
  unscheduled : t.pkt ∉ r.scheduled
  removed : t.pkt ∉ r.mshr.pkts
  locked : r.mshr.hasLockedRMWReadTarget r.heap = lockWaits h cmd behind

theorem serviceMSHRTargets_dropped {h : Heap} {next : PacketId} {m : Mshr} {blk : Option Blk}
    {r : Loop} {t : Target} {behind : List Target} (hnd : m.pkts.Nodup)
    (hlt : ∀ i ∈ m.pkts, i < next) (hl : m.targets.list = t :: behind) (ha : answered h t)
    (hc : resp.cmd ≠ .lockedRMWWriteResp) (hu : useBlock resp m blk = false)
    (hr : serviceMSHRTargets c o resp h next m blk = .ok r) :
    Dropped h m t behind resp.cmd r := by
  obtain ⟨ready, m', s, hen, hdef, hsv, hloop, hr', _⟩ := serviceMSHRTargets_ok hr
  have hun : unlockedTargets resp m = t :: behind := by rw [unlockedTargets, if_neg hc, hl]
  obtain ⟨hndr, hmem⟩ := ready_of_serviceable (Mshr.nodup_targets hnd) hsv
  rw [hun] at hsv
  have hlists := serviceable_resent ha hsv
  have hlt' : ∀ x ∈ ready, x.pkt < next := fun x hx =>
    hlt _ (List.mem_map_of_mem (List.mem_append_left _ (hmem x hx)))
  have run := serviceAll_run hndr hlt' hloop
  have hms : s.mshr = m' :=
    serviceAll_forwarded hlt' ((useBlock_congr hen.isForward rfl).trans hu) hloop
  have hmshr : r.mshr = m' := by rw [hr', hms]
  have hheap : r.heap = s.heap := by rw [hr']
  have hleft : m'.targets.list.Sublist behind := by
    split at hlists
    · rw [hlists.2]
      exact List.filter_sublist
    · rw [hlists.2]
      exact splitLocked_left_sublist h behind
  refine ⟨hmshr ▸ hen, ?_, ?_, ?_⟩
  · rw [hr', show ({ s with blk := r.blk } : Loop).scheduled = s.scheduled from rfl,
      run.scheduled, List.nil_append]
    intro hin
    obtain ⟨x, hx, hpk⟩ := List.mem_map.mp hin
    have hans := (List.mem_filter.mp hx).2
    simp only [answers, hpk, ha.2, Bool.false_and, Bool.and_false, Bool.false_eq_true] at hans
  · rw [Mshr.pkts, hl, List.cons_append, List.map_cons, List.nodup_cons] at hnd
    rw [hmshr, Mshr.pkts, hdef]
    exact fun hin => hnd.1 (((hleft.append (List.Sublist.refl _)).map Target.pkt).subset hin)
  · rw [hmshr, hheap]
    exact lock_after_service rfl hnd hlt hun ha hndr hlt' hsv hloop

theorem promoteDeferredTargets_ne_nil {m m' : Mshr} {h : Heap}
    (hr : m.promoteDeferredTargets h = some m') : m'.targets.list ≠ [] := by
  unfold Mshr.promoteDeferredTargets at hr
  split at hr
  · cases hr
  · next hne =>
    cases hr
    simp only [TargetList.populateFlags_list]
    cases ht : m.targets.list with
    | cons t ts => exact List.cons_ne_nil _ _
    | nil =>
      cases hd : m.deferredTargets.list with
      | nil =>
        rw [ht, hd] at hne
        exact absurd rfl hne
      | cons t ts =>
        -- the first deferred target is moved, alone or with those behind it
        rw [Mshr.promotable]
        split
        · exact List.cons_ne_nil _ _
        · next hno =>
          rw [List.span_eq_takeWhile_dropWhile,
            List.takeWhile_cons_of_pos (by rw [Bool.eq_false_iff.mpr hno]; rfl)]
          exact List.cons_ne_nil _ _

variable {s s' : State}

/-- The entry is settled exactly if no locked read is first after the service. -/
theorem finishResp_settled {l : Line} {tags : Tags} {r : Loop} {m : Mshr} (hm : m ∈ s.mshrs)
    (hen : Mshr.SameEntry m r.mshr) (hin : m.inService = true)
    (hr : finishResp c s l tags false r = .ok s') :
    (∀ x ∈ s'.mshrs, x.id = m.id → x.inService = false ∧ x.targets.list ≠ []) ↔
      r.mshr.hasLockedRMWReadTarget r.heap = false := by
  unfold finishResp at hr
  simp only at hr
  split at hr
  · next hlock =>
    cases hr
    refine iff_of_false ?_ (fun hno => Bool.false_ne_true (hno.symm.trans hlock))
    intro hall
    obtain ⟨hno, _⟩ := hall r.mshr (mem_setMshr hm hen.id) hen.id
    exact Bool.false_ne_true (hno.symm.trans (hen.inService.trans hin))
  · next hlock =>
    refine iff_of_true ?_ (Bool.eq_false_iff.mpr hlock)
    simp only [bind_ok_iff] at hr
    obtain ⟨_, _, hr⟩ := hr
    split at hr
    · next m' hm' =>
      simp only [bind_ok_iff, ensure_ok_iff, exists_const, pure_ok_iff] at hr
      obtain ⟨_, rfl⟩ := hr
      intro x hx hid
      have hid' : m'.id = m.id :=
        (Mshr.promoteDeferredTargets_some hm').entry.id.trans hen.id
      have hne := promoteDeferredTargets_ne_nil hm'
      rw [eq_of_mem_setMshr hx (hid.trans hid'.symm)]
      exact ⟨rfl, hne⟩
    · simp only [bind_ok_iff, pure_ok_iff] at hr
      obtain ⟨_, _, rfl⟩ := hr
      intro x hx hid
      exact absurd (hid.trans hen.id.symm) (ne_of_mem_eraseMshr hx)

/-- The response finds the line as it is: nothing is filled. -/
theorem responseBlock_forward {m : Mshr} (hf : m.isForward = true) :
    responseBlock c e s m resp = .ok (s.tags, false, s.tags.blocks (resp.line c.blkSize)) := by
  unfold responseBlock isFill
  rw [hf]
  rfl

theorem promoteTargets_block {h : Heap} {m : Mshr} {blk : Option Blk} {p : Mshr × Option Blk}
    (hc : resp.cmd.isClean = false) (hp : promoteTargets h resp m blk = .ok p) : p.2 = blk := by
  unfold promoteTargets at hp
  split at hp
  · cases hp
    rfl
  · simp only [hc, Bool.and_false, Bool.false_and, bind_ok_iff, pure_ok_iff] at hp
    obtain ⟨_, _, _, _, rfl⟩ := hp
    rfl

/-- The targets are answered with what the response brings, and not from the
block: there are data, or no valid block. -/
def FromResponse (c : Params) (s : State) (resp : Packet) : Prop :=
  resp.cmd.hasData = true ∨ blkValid (s.tags.blocks (resp.line c.blkSize)) = false

theorem useBlock_eq_false_iff {m : Mshr} (hf : m.isForward = true) :
    useBlock resp m (s.tags.blocks (resp.line c.blkSize)) = false ↔ FromResponse c s resp := by
  rw [useBlock, hf, FromResponse]
  cases resp.cmd.hasData <;> cases blkValid (s.tags.blocks (resp.line c.blkSize)) <;> decide

/-- `recvTimingResp` for a request that was forwarded. -/
theorem recvMSHRResp_forward_iff {m : Mshr} (hf : m.isForward = true) :
    recvMSHRResp c e s m resp = .ok s' ↔
      resp.cmd.isResponse = true ∧ (∃ t, m.front = .ok t) ∧
        (m.wasWholeLineWrite = true → resp.cmd.isInvalidate = true) ∧
        ∃ p r, promoteTargets s.heap resp m (s.tags.blocks (resp.line c.blkSize)) = .ok p ∧
          serviceMSHRTargets c e.toSurroundings resp s.heap s.next p.1 p.2 = .ok r ∧
          finishResp c s (resp.line c.blkSize) s.tags false r = .ok s' := by
  simp only [recvMSHRResp, bind_ok_iff, ensure_ok_iff, exists_const, mapError_ok_iff,
    responseBlock_forward hf]
  constructor
  · rintro ⟨hresp, t, ht, hwhole, f, hf, p, hp, r, hr, hfin⟩
    cases hf
    exact ⟨hresp, ⟨t, ht⟩, hwhole, p, r, hp, hr, hfin⟩
  · rintro ⟨hresp, ⟨t, ht⟩, hwhole, p, r, hp, hr, hfin⟩
    exact ⟨hresp, t, ht, hwhole, _, rfl, p, hp, r, hr, hfin⟩

/-- What the promotions leave: the answered target is still first, and it is not
answered from the block. -/
theorem Resent.promoted {m : Mshr} {t : Target} {rest : List Target} {p : Mshr × Option Blk}
    (hw : Resent s.heap m t rest) (hc : resp.cmd.isClean = false) (hfrom : FromResponse c s resp)
    (hp : promoteTargets s.heap resp m (s.tags.blocks (resp.line c.blkSize)) = .ok p) :
    (∃ moved, p.1.targets.list = t :: (rest ++ moved)) ∧ useBlock resp p.1 p.2 = false := by
  have hprom := promoteTargets_spec hp
  obtain ⟨moved, hmoved, _⟩ := hprom.moved
  rw [hw.first, List.cons_append] at hmoved
  refine ⟨⟨moved, hmoved⟩, ?_⟩
  rw [promoteTargets_block hc hp, useBlock_eq_false_iff (hprom.entry.isForward.trans hw.isForward)]
  exact hfrom

/-- What a response that goes through leaves behind. -/
theorem retired_iff {m : Mshr} {t : Target} {rest : List Target} {out : List ℕ} (ho : Owned s)
    (hm : m ∈ s.mshrs) (hw : Resent s.heap m t rest) (ha : AnswersRead resp.cmd)
    (hfrom : FromResponse c s resp)
    (hr : recvMSHRResp c e { s with outstanding := out } m resp = .ok s') :
    Retired s s' m t ↔ lockLeft c s m resp = false := by
  obtain ⟨_, hclean, hunl, _⟩ := ha.spec
  obtain ⟨_, _, _, p, r, hp, hs, hfin⟩ := (recvMSHRResp_forward_iff hw.isForward).mp hr
  have hp : promoteTargets s.heap resp m (s.tags.blocks (resp.line c.blkSize)) = .ok p := hp
  have hprom := promoteTargets_spec hp
  obtain ⟨⟨moved, hmoved⟩, hu⟩ := hw.promoted hclean hfrom hp
  obtain ⟨hnd, hlt⟩ := ho.pkts hm
  have hdrop := serviceMSHRTargets_dropped (hprom.pkts ▸ hnd) (hprom.pkts ▸ hlt) hmoved hw.stale
    hunl hu hs
  have hen : Mshr.SameEntry m r.mshr := hprom.entry.trans hdrop.entry
  have hlock : lockLeft c s m resp = lockWaits s.heap resp.cmd (rest ++ moved) := by
    rw [lockLeft, hp]
    dsimp only
    rw [hmoved, List.tail_cons]
  have hsettled := finishResp_settled (s := { s with outstanding := out }) hm hen hw.inService hfin
  rw [hdrop.locked] at hsettled
  rw [hlock, ← hsettled]
  refine ⟨fun h => h.settled, fun h => ⟨?_, ?_, h⟩⟩
  · obtain ⟨⟨_, _, hdel, _⟩, _⟩ := finishResp_spec hfin
    exact ⟨r.scheduled, hdel, hdrop.unscheduled⟩
  · intro x hx hid
    rw [finishResp_pkts hfin hx (hid.trans hen.id.symm)]
    exact hdrop.removed

/-! ### Whether the response goes through -/

theorem finishBlock_ok (inv hasFromCache : Bool) {s : Loop} (hin : s.mshr.inService = true) :
    ∃ b, finishBlock c inv hasFromCache s = .ok b := by
  have hpost : s.mshr.hasPostInvalidate = .ok s.mshr.postInvalidate := by
    rw [Mshr.hasPostInvalidate, hin]
    rfl
  have hdown : s.mshr.hasPostDowngrade = .ok s.mshr.postDowngrade := by
    rw [Mshr.hasPostDowngrade, hin]
    rfl
  unfold finishBlock
  generalize (if !s.fromCore && s.fromPref then _ else s.blk) = blk
  simp only [hpost, hdown]
  split
  · exact ⟨_, rfl⟩
  · split
    · cases inv <;> cases s.mshr.postInvalidate <;> cases s.mshr.postDowngrade <;> exact ⟨_, rfl⟩
    · exact ⟨_, rfl⟩

/-- The first target is the one answered already: its turn is the first. -/
theorem first_turn_of_ok {h : Heap} {next : PacketId} {m : Mshr} {blk : Option Blk} {r : Loop}
    {t : Target} {behind : List Target} (hl : m.targets.list = t :: behind) (ha : answered h t)
    (hc : resp.cmd ≠ .lockedRMWWriteResp)
    (hr : serviceMSHRTargets c o resp h next m blk = .ok r) :
    (h t.pkt).cmd.isSWPrefetch = true ∨ useBlock resp m blk = false := by
  obtain ⟨ready, m', s, hen, _, hsv, hloop, _⟩ := serviceMSHRTargets_ok hr
  rw [unlockedTargets, if_neg hc, hl] at hsv
  have hready : ∃ ts, ready = t :: ts := by
    have hlists := serviceable_resent ha hsv
    split at hlists
    · exact ⟨_, hlists.1⟩
    · exact ⟨_, hlists.1⟩
  obtain ⟨ts, rfl⟩ := hready
  simp only [serviceAll, bind_ok_iff, mapError_ok_iff] at hloop
  obtain ⟨s₁, h₁, _⟩ := hloop
  have hturn := (serviceTarget_answered (s := ⟨h, next, m', blk, [], [], [], false, false⟩) ha).mp
    ⟨s₁, h₁⟩
  exact hturn.imp_right fun hu => (useBlock_congr hen.isForward rfl).symm.trans hu.1

theorem serviceMSHRTargets_lone {h : Heap} {next : PacketId} {m : Mshr} {blk : Option Blk}
    {t : Target} (hl : m.targets.list = [t]) (ha : answered h t) (hin : m.inService = true)
    (hlt : t.pkt < next) (hc : resp.cmd ≠ .lockedRMWWriteResp)
    (hf : resp.cmd ≠ .upgradeFailResp)
    (hok : (h t.pkt).cmd.isSWPrefetch = true ∨ useBlock resp m blk = false) :
    ∃ r, serviceMSHRTargets c o resp h next m blk = .ok r ∧ r.mshr.targets.list = [] ∧
      r.mshr.deferredTargets = m.deferredTargets := by
  have hunl : (h t.pkt).cmd ≠ .lockedRMWReadReq := ha.cmd_ne rfl
  have hfront : popLocked resp h m = .ok m := by
    simp only [popLocked, Mshr.front, hl, if_neg hc]
    rfl
  have hsv : Mshr.serviceable h resp.cmd m.targets.list = .ok ([t], []) := by
    rw [hl]
    unfold Mshr.serviceable
    split
    · simp only [ha.1, true_or, if_neg hunl, List.not_mem_nil, false_implies, implies_true, ensure,
        if_true]
      rfl
    · rw [Mshr.splitLocked, if_neg hunl]
      rfl
  obtain ⟨⟨l, m'⟩, hext⟩ : ∃ x, m.extractServiceableTargets h resp.cmd = .ok x := by
    rw [Mshr.extractServiceableTargets, hsv]
    exact ⟨_, rfl⟩
  obtain ⟨hen, hdef, hsv'⟩ := Mshr.extractServiceableTargets_spec hext
  rw [hsv] at hsv'
  obtain ⟨hlist, hleft⟩ := Prod.mk.inj (Except.ok.inj hsv')
  let s₀ : Loop := ⟨h, next, m', blk, [], [], [], false, false⟩
  have hturn : ∃ s₁, serviceTarget c o resp (isInvalidateFor resp m) s₀ t = .ok s₁ := by
    refine (serviceTarget_answered (s := s₀) ha).mpr (hok.imp_right fun hu => ⟨?_, hf⟩)
    exact (useBlock_congr hen.isForward rfl).trans hu
  obtain ⟨s₁, hs₁⟩ := hturn
  have hsame : s₁.mshr = m' :=
    ((serviceTarget_turn (s := s₀) hlt hs₁).1.same fun hlk => hunl hlk.1.2).1
  obtain ⟨b, hb⟩ := finishBlock_ok (c := c) (isInvalidateFor resp m) l.hasFromCache (s := s₁)
    (by rw [hsame, hen.inService, hin])
  refine ⟨{ s₁ with blk := b }, ?_, ?_, ?_⟩
  · simp only [serviceMSHRTargets, bind_ok_iff, mapError_ok_iff, pure_ok_iff]
    refine ⟨m, hfront, (l, m'), hext, s₁, ?_, b, hb, rfl⟩
    rw [← hlist]
    simp only [serviceAll, bind_ok_iff, mapError_ok_iff, pure_ok_iff, exists_eq_right]
    exact hs₁
  · dsimp only
    rw [hsame, ← hleft]
  · dsimp only
    rw [hsame, hdef]

theorem promoteTargets_lone {h : Heap} {m : Mshr} (blk : Option Blk) {t : Target}
    {rest : List Target} (hl : m.targets.list = t :: rest) (ha : answered h t)
    (hd : m.deferredTargets.list = []) (hc : resp.cmd.isClean = false) :
    promoteTargets h resp m blk = .ok (m, blk) := by
  have hno : m.hasLockedRMWReadTarget h = false := by
    rw [Mshr.hasLockedRMWReadTarget, hl]
    exact beq_eq_false_iff_ne.mpr (ha.cmd_ne rfl)
  have hw : m.promoteWritable h = .ok m := by
    rw [Mshr.promoteWritable, hd]
    rfl
  unfold promoteTargets
  rw [hno, hc]
  simp only [Bool.and_false, Bool.false_and, Bool.false_eq_true, if_false]
  split
  · exact bind_ok_iff.mpr ⟨m, rfl, bind_ok_iff.mpr ⟨m, hw, rfl⟩⟩
  · rfl

theorem finishResp_lone {l : Line} {t : Tags} {r : Loop} (hl : r.mshr.targets.list = [])
    (hd : r.mshr.deferredTargets.list = []) (hreset : r.mshr.deferredTargets.isReset = true) :
    ∃ s', finishResp c s l t false r = .ok s' := by
  have hno : r.mshr.hasLockedRMWReadTarget r.heap = false := by
    rw [Mshr.hasLockedRMWReadTarget, hl]
  have hnone : r.mshr.promoteDeferredTargets r.heap = none := by
    rw [Mshr.promoteDeferredTargets, hl, hd]
    rfl
  have hdealloc : r.mshr.deallocate = .ok ⟨⟩ := by
    simp only [Mshr.deallocate, hl, hreset, ensure]
    rfl
  unfold finishResp
  simp only [hno, Bool.false_eq_true, if_false, hnone]
  exact ⟨_, bind_ok_iff.mpr ⟨⟨⟩, rfl, bind_ok_iff.mpr ⟨⟨⟩, hdealloc, rfl⟩⟩⟩

/-- An answered target alone in its MSHR: the response goes through exactly if
the MSHR was not sent as a whole-line write, unless the response invalidates,
and the target is not looked up in the block. -/
theorem recvMSHRResp_lone_iff {m : Mshr} {t : Target} (hw : Resent s.heap m t [])
    (hlt : t.pkt < s.next) (hd : m.deferredTargets.list = [])
    (hreset : m.deferredTargets.isReset = true) (ha : AnswersRead resp.cmd) :
    (∃ s', recvMSHRResp c e s m resp = .ok s') ↔
      (m.wasWholeLineWrite = true → resp.cmd.isInvalidate = true) ∧
        ((s.heap t.pkt).cmd.isSWPrefetch = true ∨ FromResponse c s resp) := by
  obtain ⟨hresp, hclean, hunl, hfail⟩ := ha.spec
  have hfront : m.front = .ok t := by rw [Mshr.front, hw.first]
  have hp := promoteTargets_lone (s.tags.blocks (resp.line c.blkSize)) hw.first hw.stale hd hclean
  simp only [recvMSHRResp_forward_iff hw.isForward, ← useBlock_eq_false_iff hw.isForward, hp]
  constructor
  · rintro ⟨s', _, _, hwhole, p, r, hp', hs, _⟩
    cases hp'
    exact ⟨hwhole, first_turn_of_ok hw.first hw.stale hunl hs⟩
  · rintro ⟨hwhole, hok⟩
    obtain ⟨r, hr, hnil, hdef⟩ := serviceMSHRTargets_lone (c := c) (o := e.toSurroundings) hw.first
      hw.stale hw.inService hlt hunl hfail hok
    obtain ⟨s', hs'⟩ := finishResp_lone (c := c) (s := s) (l := resp.line c.blkSize) (t := s.tags)
      hnil (hdef ▸ hd) (hdef ▸ hreset)
    exact ⟨s', hresp, ⟨t, hfront⟩, hwhole, _, r, rfl, hr, hs'⟩

/-- With targets behind it too, no assertion fails in the turn of the answered
target. -/
theorem first_turn_unasserted {m : Mshr} {t : Target} {rest : List Target} {p : Mshr × Option Blk}
    {f : Fault} (ho : Owned s) (hm : m ∈ s.mshrs) (hw : Resent s.heap m t rest)
    (ha : AnswersRead resp.cmd) (hfrom : FromResponse c s resp)
    (hp : promoteTargets s.heap resp m (s.tags.blocks (resp.line c.blkSize)) = .ok p)
    (hf : serviceMSHRTargets c o resp s.heap s.next p.1 p.2 = .error f) :
    f.target ≠ some t.pkt := by
  obtain ⟨_, hclean, hunl, hfail⟩ := ha.spec
  obtain ⟨⟨moved, hmoved⟩, hu⟩ := hw.promoted hclean hfrom hp
  obtain ⟨hnd, hlt⟩ := ho.pkts hm
  rw [← (promoteTargets_spec hp).pkts] at hnd hlt
  have hharmless : Harmless resp s.heap p.1 p.2 := by
    refine ⟨fun hc => absurd hc hunl, ?_⟩
    intro ready left _ pre x post _ _ _
    exact ⟨hfail, fun hu' => absurd (hu.symm.trans hu') Bool.false_ne_true⟩
  have hsafe := hharmless.safe (c := c) (o := o) (Mshr.nodup_targets hnd)
    (fun x hx => hlt _ (List.mem_map_of_mem (List.mem_append_left _ hx)))
  refine hsafe.no_fault f hf t ?_ hw.stale
  rw [hmoved]
  exact List.mem_cons_self

/-! ## The round trip -/

/-- The first target of an MSHR is a response. If the MSHR is due, the read is
sent exactly if the packet would have been forwarded unchanged. If it is in
service for that read, the response fails no assertion in the turn of the target,
and when it goes through, which a target that is alone decides, the target is
retired exactly if no locked read is left first. -/
theorem answered_target_reissued_iff (c : Params) (e : Environment) (s : State) (m : Mshr)
    (t : Target) (rest : List Target) (hm : m ∈ s.mshrs) (hl : m.targets.list = t :: rest)
    (hp : (s.heap t.pkt).cmd.isResponse = true) :
    (m.inService = false →
      (Reissued c e s m t ↔ PassedThrough (s.heap t.pkt) (s.tags.blocks m.line))) ∧
    ∀ (as : List Action) (resp : Packet), exec (step c) State.init as = some s →
      m.inService = true → m.isForward = true → t.source = .fromCPU → AnswersRead resp.cmd →
      (FromResponse c s resp →
        (∀ p f, promoteTargets s.heap resp m (s.tags.blocks (resp.line c.blkSize)) = .ok p →
          serviceMSHRTargets c e.toSurroundings resp s.heap s.next p.1 p.2 = .error f →
          f.target ≠ some t.pkt) ∧
        ∀ s', recvMSHRResp c e { s with outstanding := s.outstanding.erase m.id } m resp = .ok s' →
          (Retired s s' m t ↔ lockLeft c s m resp = false)) ∧
      (rest = [] → m.deferredTargets.list = [] → m.deferredTargets.isReset = true →
        ((∃ s', recvMSHRResp c e { s with outstanding := s.outstanding.erase m.id } m resp =
            .ok s') ↔
          (m.wasWholeLineWrite = true → resp.cmd.isInvalidate = true) ∧
            ((s.heap t.pkt).cmd.isSWPrefetch = true ∨ FromResponse c s resp))) := by
  refine ⟨fun hs => reissued_iff hm hs hl hp, ?_⟩
  intro as resp hr hin hfwd hsrc ha
  have ho := owned_of_exec hr
  have hw : Resent s.heap m t rest := ⟨hin, hfwd, hl, hsrc, (isResponse_spec hp).1⟩
  refine ⟨fun hfrom => ⟨?_, ?_⟩, ?_⟩
  · intro p f hpr hf
    exact first_turn_unasserted ho hm hw ha hfrom hpr hf
  · intro s' hs'
    exact retired_iff ho hm hw ha hfrom hs'
  · rintro rfl hd hreset
    have hlt : t.pkt < s.next :=
      (ho.pkts hm).2 _ (Mshr.head_mem_pkts (by rw [hl]; exact rfl))
    exact recvMSHRResp_lone_iff (s := { s with outstanding := s.outstanding.erase m.id }) hw hlt hd
      hreset ha

/-- The read half of a locked access is answered with a response that is passed
on, and stays a target. -/
def answeredLock (uncacheable : Bool) (resp : MemCmd) : List Action :=
  [.request (.plain .lockedRMWReadReq uncacheable) .quiet, .send 0 true .quiet,
    .response 0 (.plain resp uncacheable) .quiet]

/-- An uncacheable access: the read goes below, and its response frees the
MSHR. -/
theorem answered_target_reissued_iff_uncacheable :
    (∃ s m t, exec (step .plain) State.init (answeredLock true .readResp) = some s ∧
      m ∈ s.mshrs ∧ m.targets.list = [t] ∧ m.inService = false ∧ Reissued .plain .quiet s m t) ∧
    ∃ s s' m t, exec (step .plain) State.init (answeredLock true .readResp ++
        [.send 0 true .quiet]) = some s ∧
      m ∈ s.mshrs ∧ m.targets.list = [t] ∧
      recvMSHRResp .plain .quiet { s with outstanding := s.outstanding.erase m.id } m
        (.plain .readResp true) = .ok s' ∧ Retired s s' m t ∧ s'.mshrs = [] := by
  constructor
  · refine ⟨_, _, ⟨0, .fromCPU, true⟩, rfl, List.mem_cons_self, rfl, rfl, ?_⟩
    exact ((answered_target_reissued_iff .plain .quiet _ _ _ [] List.mem_cons_self rfl rfl).1
      rfl).mpr (Or.inl rfl)
  · refine ⟨_, _, _, ⟨0, .fromCPU, true⟩, rfl, List.mem_cons_self, rfl, rfl, ?_, rfl⟩
    have hresp := (answered_target_reissued_iff .plain .quiet _ _ _ [] List.mem_cons_self rfl rfl).2
      (answeredLock true .readResp ++ [.send 0 true .quiet]) (.plain .readResp true) rfl rfl rfl rfl
      (Or.inl rfl)
    exact ((hresp.1 (Or.inl rfl)).2 _ rfl).mpr (by decide +kernel)

/-- A cacheable access that is answered with an error: the MSHR is due to be
sent, and the send fails an assertion, also if it would not be accepted. -/
theorem cacheable_target_not_reissued :
    ∃ s m, exec (step .plain) State.init (answeredLock false .badAddressError) = some s ∧
      m ∈ s.mshrs ∧ m.inService = false ∧ m.targets.list = [⟨0, .fromCPU, true⟩] ∧
      (s.heap 0).cmd = .badAddressError ∧ s.delivered = [0] ∧
      (∀ accepted, baseSend .plain .quiet s m accepted = .error .missNoResponse) ∧
      ¬Reissued .plain .quiet s m ⟨0, .fromCPU, true⟩ := by
  refine ⟨_, _, rfl, List.mem_cons_self, rfl, rfl, rfl, rfl, ?_, ?_⟩
  · intro accepted
    cases accepted <;> rfl
  · intro h
    obtain ⟨s', hs'⟩ := h.unasserted true
    cases hs'

end PnmCompaction.Cache
