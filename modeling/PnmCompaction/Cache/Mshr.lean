import PnmCompaction.Cache.Packet
import Mathlib.Logic.Function.Basic
import Mathlib.Data.List.Basic

/-!
# Miss status holding registers

`MSHR` and its `TargetList` (mem/cache/mshr.hh, mshr.cc 76-232, 303-421,
423-545, 547-709, 788-804). A target names its packet; the commands are read
through the heap, so a packet that has been answered in place is seen as a
response by every list that still holds it.
Ready times and order stamps, and the pending marks of the MSHRs of upstream
caches, are left out.
-/

namespace PnmCompaction.Cache

open PnmCompaction.Lib.Checked PnmCompaction.Lib.LittleEndian

inductive Source
  | fromCPU | fromSnoop | fromPrefetcher
  deriving DecidableEq, Repr

structure Target where
  pkt : PacketId
  source : Source
  allocOnFill : Bool
  deriving DecidableEq, Repr

/-- `MSHR::TargetList`: the list and the summary flags kept beside it. -/
structure TargetList where
  list : List Target
  blkSize : ℕ
  needsWritable : Bool
  hasUpgrade : Bool
  allocOnFill : Bool
  hasFromCache : Bool
  canMergeWrites : Bool
  writesBitmap : List Bool
  deriving DecidableEq, Repr

namespace TargetList

def init (blkSize : ℕ) : TargetList :=
  ⟨[], blkSize, false, false, false, false, true, List.replicate blkSize false⟩

def resetFlags (l : TargetList) : TargetList :=
  { init l.blkSize with list := l.list }

def isReset (l : TargetList) : Bool :=
  !l.needsWritable && !l.hasUpgrade && !l.allocOnFill && !l.hasFromCache && l.canMergeWrites

def isWholeLineWrite (l : TargetList) : Bool := l.writesBitmap.all id

def updateWriteFlags (l : TargetList) (p : Packet) : TargetList :=
  if l.isWholeLineWrite then l
  else if l.canMergeWrites then
    if p.cmd.isWrite then
      let compatWrite := !(p.req.isUncacheable || p.req.noMerge)
      let offset := p.getOffset l.blkSize
      { l with
        writesBitmap :=
          if !p.isMaskedWrite && (l.list.isEmpty || compatWrite) then
            l.writesBitmap.mapIdx fun i b => b || decide (offset ≤ i ∧ i < offset + p.size)
          else l.writesBitmap
        canMergeWrites := compatWrite }
    else { l with canMergeWrites := false }
  else l

/-- mshr.cc 76-106. The test `isRequest` stands in front of `needsWritable`, so
that its assertion cannot fail here. -/
def updateFlags (l : TargetList) (p : Packet) (source : Source) (allocOnFill : Bool) :
    TargetList :=
  if source = .fromSnoop then l
  else
    let l := { l with
      needsWritable := l.needsWritable || (p.isRequest && p.cmd.needsWritable)
      hasUpgrade := l.hasUpgrade || (p.cmd.isUpgrade || p.cmd == .storeCondReq)
      allocOnFill := l.allocOnFill || allocOnFill }
    if source = .fromPrefetcher then l
    else { l with hasFromCache := l.hasFromCache || p.cmd.fromCache }.updateWriteFlags p

def populateFlags (l : TargetList) (h : Heap) : TargetList :=
  l.list.foldl (fun acc t => acc.updateFlags (h t.pkt) t.source t.allocOnFill) l.resetFlags

def add (l : TargetList) (h : Heap) (t : Target) : TargetList :=
  let l := l.updateFlags (h t.pkt) t.source t.allocOnFill
  { l with list := l.list ++ [t] }

end TargetList

/-- mshr.cc 189-218; a command that now has response data gets a buffer. -/
def replaceUpgrade (p : Packet) : Packet :=
  let hadData := p.cmd.hasData || p.cmd.hasRespData
  let cmd := match p.cmd with
    | .upgradeReq => .readExReq
    | .scUpgradeReq => .scUpgradeFailReq
    | .storeCondReq => .storeCondFailReq
    | cmd => cmd
  { p with
    cmd := cmd
    data := if !hadData && cmd.hasRespData then List.replicate p.size 0 else p.data }

def TargetList.replaceUpgrades (l : TargetList) (h : Heap) : Heap × TargetList :=
  if l.hasUpgrade then
    (l.list.foldl (fun h t => Function.update h t.pkt (replaceUpgrade (h t.pkt))) h,
      { l with hasUpgrade := false })
  else (h, l)

structure Mshr where
  id : ℕ
  blkAddr : ℕ
  isSecure : Bool
  isUncacheable : Bool
  inService : Bool
  downstreamPending : Bool
  pendingModified : Bool
  postInvalidate : Bool
  postDowngrade : Bool
  wasWholeLineWrite : Bool
  isForward : Bool
  targets : TargetList
  deferredTargets : TargetList
  deriving DecidableEq, Repr

namespace Mshr

def pkts (m : Mshr) : List PacketId :=
  (m.targets.list ++ m.deferredTargets.list).map Target.pkt

def allocate (id blkAddr blkSize : ℕ) (h : Heap) (target : PacketId) (allocOnFill : Bool) : Mshr :=
  let source := if (h target).cmd = .hardPFReq then .fromPrefetcher else .fromCPU
  { id := id
    blkAddr := blkAddr
    isSecure := (h target).isSecure
    isUncacheable := (h target).req.isUncacheable
    inService := false
    downstreamPending := false
    pendingModified := false
    postInvalidate := false
    postDowngrade := false
    wasWholeLineWrite := false
    isForward := false
    targets := (TargetList.init blkSize).add h ⟨target, source, allocOnFill⟩
    deferredTargets := TargetList.init blkSize }

def markInService (m : Mshr) (pendingModifiedResp : Bool) : Except Assertion Mshr := do
  ensure (m.inService = false) .alreadyInService
  pure { m with
    inService := true
    pendingModified := m.targets.needsWritable || pendingModifiedResp
    postInvalidate := false
    postDowngrade := false
    wasWholeLineWrite := m.targets.isWholeLineWrite }

def front (m : Mshr) : Except Assertion Target :=
  match m.targets.list with
  | [] => .error .noTargets
  | t :: _ => .ok t

def hasPostInvalidate (m : Mshr) : Except Assertion Bool := do
  ensure (m.inService = true) .notInService
  pure m.postInvalidate

def hasPostDowngrade (m : Mshr) : Except Assertion Bool := do
  ensure (m.inService = true) .notInService
  pure m.postDowngrade

/-- The condition of mshr.cc 398-405 for deferring the new target. -/
def defers (m : Mshr) (h : Heap) (first : Target) (p : Packet) : Except Assertion Bool :=
  if p.req.isCacheMaintenance || (h first.pkt).req.isCacheMaintenance ||
      !m.deferredTargets.list.isEmpty then pure true
  else if m.inService then
    if m.postInvalidate then pure true
    else do
      let w ← p.needsWritable
      pure (w && (!m.pendingModified || m.postDowngrade || m.isForward))
  else pure false

def allocateTarget (m : Mshr) (h : Heap) (pkt : PacketId) (allocOnFill : Bool) :
    Except Assertion (Heap × Mshr) := do
  ensure ((h pkt).cmd ≠ .hardPFReq) .hardPrefetchTarget
  let first ← m.front
  let t : Target := ⟨pkt, .fromCPU, allocOnFill⟩
  if ← m.defers h first (h pkt) then
    let h := if m.inService && m.postInvalidate then
      Function.update h pkt (replaceUpgrade (h pkt)) else h
    pure (h, { m with deferredTargets := m.deferredTargets.add h t })
  else pure (h, { m with targets := m.targets.add h t })

/-- What `MSHR::handleSnoop` leaves behind: the answer, the snooped packet with
the flags set on it, and whether the deferred copy has been made. -/
structure Snooped where
  willRespond : Bool
  pkt : Packet
  heap : Heap
  mshr : Mshr
  copied : Bool

def clearFlags (p : Packet) : Packet :=
  { p with
    hasSharers := false, expressSnoop := false, responderHadWritable := false,
    cacheResponding := false, writeThrough := false, satisfied := false, blockCached := false }

/-- Saving the snoop for after the response, mshr.cc 479-532: the packet is
copied under the identity `copy` and queued as a target. -/
def deferSnoop (m : Mshr) (h : Heap) (p : Packet) (copy : PacketId) (willRespond : Bool) :
    Except Assertion (Packet × Heap × Mshr) := do
  let cp := if willRespond then clearFlags p else
    { clearFlags p with addr := m.blkAddr, size := m.targets.blkSize }
  let h := Function.update h copy cp
  let q ← (if willRespond then p.setCacheResponding >>= Packet.setResponderHadWritable
    else if m.pendingModified && p.cmd.isClean then p.setSatisfied
    else pure p)
  pure (q, h, { m with
    targets := m.targets.add h ⟨copy, .fromSnoop, false⟩
    postInvalidate := m.postInvalidate || p.cmd.needsWritable || p.cmd.isInvalidate })

def handleSnoop (m : Mshr) (h : Heap) (p : Packet) (copy : PacketId) :
    Except Assertion Snooped := do
  let w ← p.needsWritable
  ensure (w = p.cmd.isInvalidate ∨ p.req.isCacheMaintenance = true) .snoopWritableMismatch
  let takesAway := w || p.req.isCacheInvalidate
  if !m.inService || (p.expressSnoop && m.downstreamPending) then
    if takesAway then
      let ht := m.targets.replaceUpgrades h
      let hd := m.deferredTargets.replaceUpgrades ht.1
      pure ⟨false, p, hd.1, { m with targets := ht.2, deferredTargets := hd.2 }, false⟩
    else pure ⟨false, p, h, m, false⟩
  else
    let hd := if takesAway then m.deferredTargets.replaceUpgrades h else (h, m.deferredTargets)
    let m := { m with deferredTargets := hd.2 }
    let first ← m.front
    if m.postInvalidate || (hd.1 first.pkt).req.isCacheInvalidate then
      pure ⟨true, p, hd.1, m, false⟩
    else
      let willRespond := m.pendingModified && p.cmd.needsResponse && !p.cmd.isClean
      let saved := m.pendingModified || p.cmd.isInvalidate
      let r ← (if saved then m.deferSnoop hd.1 p copy willRespond else pure (p, hd.1, m))
      if !w && !p.req.isUncacheable then
        pure ⟨willRespond, { r.1 with hasSharers := true }, r.2.1,
          { r.2.2 with postDowngrade := true }, saved⟩
      else pure ⟨willRespond, r.1, r.2.1, r.2.2, saved⟩

/-- The targets up to and including the first locked read, and what the list
keeps: the locked read stays in it. -/
def splitLocked (h : Heap) : List Target → List Target × List Target
  | [] => ([], [])
  | t :: ts =>
    if (h t.pkt).cmd = .lockedRMWReadReq then ([t], t :: ts)
    else (t :: (splitLocked h ts).1, (splitLocked h ts).2)

/-- The split of mshr.cc 557-590, before the flags are recomputed. -/
def serviceable (h : Heap) (cmd : MemCmd) (l : List Target) :
    Except Assertion (List Target × List Target) :=
  if cmd = .readRespWithInvalidate then
    match l with
    | [] => .error .noTargets
    | t :: ts => do
      ensure (t.source = .fromCPU ∨ t.source = .fromPrefetcher) .extractSource
      if (h t.pkt).cmd = .lockedRMWReadReq then pure ([t], t :: ts)
      else
        ensure (∀ x ∈ ts, x.source = .fromCPU ∨ x.source = .fromSnoop) .extractSource
        pure (t :: ts.filter (·.source ≠ .fromCPU), ts.filter (·.source = .fromCPU))
  else pure (splitLocked h l)

def extractServiceableTargets (m : Mshr) (h : Heap) (cmd : MemCmd) :
    Except Assertion (TargetList × Mshr) := do
  let r ← serviceable h cmd m.targets.list
  pure ({ TargetList.init m.targets.blkSize with list := r.1 }.populateFlags h,
    { m with targets := { m.targets with list := r.2 }.populateFlags h })

/-- The deferred targets that `promoteDeferredTargets` moves, and the rest. -/
def promotable (h : Heap) (noTargets : Bool) : List Target → List Target × List Target
  | [] => ([], [])
  | t :: ts =>
    if (h t.pkt).req.isCacheMaintenance then
      if noTargets then ([t], ts) else ([], t :: ts)
    else (t :: ts).span fun t => !(h t.pkt).req.isCacheMaintenance

/-- mshr.cc 596-633; `none` is the answer false. -/
def promoteDeferredTargets (m : Mshr) (h : Heap) : Option Mshr :=
  if m.targets.list.isEmpty && m.deferredTargets.list.isEmpty then none
  else
    let r := promotable h m.targets.list.isEmpty m.deferredTargets.list
    some { m with
      deferredTargets := { m.deferredTargets with list := r.2 }.populateFlags h
      targets := { m.targets with list := m.targets.list ++ r.1 }.populateFlags h }

def spanChecked (pred : Target → Except Assertion Bool) :
    List Target → Except Assertion (List Target × List Target)
  | [] => pure ([], [])
  | t :: ts => do
    if ← pred t then
      let r ← spanChecked pred ts
      pure (t :: r.1, r.2)
    else pure ([], t :: ts)

/-- mshr.cc 635-656; the flags of `targets` are not recomputed. -/
def promoteIf (m : Mshr) (h : Heap) (pred : Target → Except Assertion Bool) :
    Except Assertion Mshr := do
  ensure (m.downstreamPending = false) .downstreamStillPending
  let r ← spanChecked pred m.deferredTargets.list
  pure { m with
    targets := { m.targets with list := m.targets.list ++ r.1 }
    deferredTargets := { m.deferredTargets with list := r.2 }.populateFlags h }

/-- The predicate of mshr.cc 670-677: answered packets are promoted too. -/
def readablePred (h : Heap) (t : Target) : Except Assertion Bool := do
  ensure (t.source = .fromCPU) .deferredSource
  if (h t.pkt).isRequest then
    if (h t.pkt).req.isCacheInvalidate then pure false
    else
      let w ← (h t.pkt).needsWritable
      pure !w
  else pure true

def promoteReadable (m : Mshr) (h : Heap) : Except Assertion Mshr := do
  if m.deferredTargets.list.isEmpty then pure m
  else if ← m.hasPostInvalidate then pure m
  else m.promoteIf h (readablePred h)

def writablePred (h : Heap) (t : Target) : Except Assertion Bool := do
  ensure (t.source = .fromCPU) .deferredSource
  pure !(h t.pkt).req.isCacheInvalidate

def promoteWritable (m : Mshr) (h : Heap) : Except Assertion Mshr :=
  match m.deferredTargets.list with
  | [] => pure m
  | t :: _ =>
    if m.deferredTargets.needsWritable then do
      let inv ← m.hasPostInvalidate
      let down ← m.hasPostDowngrade
      if (inv || down) || (h t.pkt).req.isCacheInvalidate then pure m
      else
        ensure (m.targets.needsWritable = false) .writableAlready
        { m with targets := { m.targets with needsWritable := true } }.promoteIf h
          (writablePred h)
    else pure m

/-- mshr.cc 788-794: the first target gets the fresh packet `dummy`. -/
def updateLockedRMWReadTarget (m : Mshr) (pkt dummy : PacketId) : Except Assertion Mshr :=
  match m.targets.list with
  | [] => .error .notLockedTarget
  | t :: ts => do
    ensure (t.pkt = pkt) .notLockedTarget
    pure { m with targets := { m.targets with list := { t with pkt := dummy } :: ts } }

def hasLockedRMWReadTarget (m : Mshr) (h : Heap) : Bool :=
  match m.targets.list with
  | [] => false
  | t :: _ => (h t.pkt).cmd == .lockedRMWReadReq

def popTarget (m : Mshr) : Mshr :=
  { m with targets := { m.targets with list := m.targets.list.tail } }

def deallocate (m : Mshr) : Except Assertion PUnit := do
  ensure (m.targets.list = []) .targetsLeft
  ensure (m.deferredTargets.isReset = true) .deferredNotReset

end Mshr

/-! ## What the operations do to the lists -/

namespace TargetList

@[simp] theorem updateWriteFlags_list (l : TargetList) (p : Packet) :
    (l.updateWriteFlags p).list = l.list := by
  unfold updateWriteFlags
  split
  · rfl
  · split
    · split <;> rfl
    · rfl

@[simp] theorem updateFlags_list (l : TargetList) (p : Packet) (source : Source) (a : Bool) :
    (l.updateFlags p source a).list = l.list := by
  unfold updateFlags
  split
  · rfl
  · split
    · rfl
    · exact updateWriteFlags_list _ p

@[simp] theorem populateFlags_list (l : TargetList) (h : Heap) :
    (l.populateFlags h).list = l.list := by
  have key : ∀ (ts : List Target) (acc : TargetList),
      (ts.foldl (fun acc t => acc.updateFlags (h t.pkt) t.source t.allocOnFill) acc).list =
        acc.list := by
    intro ts
    induction ts with
    | nil => exact fun _ => rfl
    | cons t ts ih => exact fun acc => (ih _).trans (updateFlags_list acc _ _ _)
  exact key l.list l.resetFlags

@[simp] theorem add_list (l : TargetList) (h : Heap) (t : Target) :
    (l.add h t).list = l.list ++ [t] := by
  simp only [add, updateFlags_list]

end TargetList

/-- `q` is a locked read exactly if `p` is, and has the same request. -/
def SameLock (p q : Packet) : Prop :=
  (q.cmd = .lockedRMWReadReq ↔ p.cmd = .lockedRMWReadReq) ∧ q.req = p.req

theorem SameLock.refl (p : Packet) : SameLock p p := ⟨Iff.rfl, rfl⟩

theorem SameLock.trans {p q r : Packet} (a : SameLock p q) (b : SameLock q r) : SameLock p r :=
  ⟨b.1.trans a.1, b.2.trans a.2⟩

def SameLocks (h h' : Heap) : Prop := ∀ i, SameLock (h i) (h' i)

theorem SameLocks.refl (h : Heap) : SameLocks h h := fun i => SameLock.refl (h i)

theorem SameLocks.trans {h h' h'' : Heap} (a : SameLocks h h') (b : SameLocks h' h'') :
    SameLocks h h'' :=
  fun i => (a i).trans (b i)

theorem replaceUpgrade_locked (p : Packet) :
    (replaceUpgrade p).cmd = .lockedRMWReadReq ↔ p.cmd = .lockedRMWReadReq := by
  unfold replaceUpgrade
  cases p.cmd <;> simp

theorem sameLocks_replaceUpgrade (h : Heap) (i : PacketId) :
    SameLocks h (Function.update h i (replaceUpgrade (h i))) := by
  intro j
  by_cases hj : j = i
  · subst hj
    rw [Function.update_self]
    exact ⟨replaceUpgrade_locked (h j), rfl⟩
  · rw [Function.update_of_ne hj]
    exact SameLock.refl _

theorem TargetList.sameLocks_replaceUpgrades (l : TargetList) (h : Heap) :
    SameLocks h (l.replaceUpgrades h).1 := by
  have key : ∀ (ts : List Target) (h : Heap), SameLocks h
      (ts.foldl (fun h t => Function.update h t.pkt (replaceUpgrade (h t.pkt))) h) := by
    intro ts
    induction ts with
    | nil => exact SameLocks.refl
    | cons t ts ih => exact fun h => (sameLocks_replaceUpgrade h t.pkt).trans (ih _)
  unfold replaceUpgrades
  split
  · exact key l.list h
  · exact SameLocks.refl h

theorem TargetList.replaceUpgrades_frame (l : TargetList) (h : Heap) {i : PacketId}
    (hi : i ∉ l.list.map Target.pkt) : (l.replaceUpgrades h).1 i = h i := by
  have key : ∀ (ts : List Target) (h : Heap), i ∉ ts.map Target.pkt →
      (ts.foldl (fun h t => Function.update h t.pkt (replaceUpgrade (h t.pkt))) h) i = h i := by
    intro ts
    induction ts with
    | nil => exact fun _ _ => rfl
    | cons t ts ih =>
      intro h hi
      rw [List.map_cons, List.mem_cons, not_or] at hi
      exact (ih _ hi.2).trans (Function.update_of_ne hi.1 _ _)
  unfold replaceUpgrades
  split
  · exact key l.list h hi
  · rfl

@[simp] theorem TargetList.replaceUpgrades_list (l : TargetList) (h : Heap) :
    (l.replaceUpgrades h).2.list = l.list := by
  unfold replaceUpgrades
  split <;> rfl

namespace Mshr

/-- `m'` is `m` up to its target lists, their flags and the post flags. -/
structure SameEntry (m m' : Mshr) : Prop where
  id : m'.id = m.id
  blkAddr : m'.blkAddr = m.blkAddr
  isSecure : m'.isSecure = m.isSecure
  isUncacheable : m'.isUncacheable = m.isUncacheable
  inService : m'.inService = m.inService
  isForward : m'.isForward = m.isForward
  wasWholeLineWrite : m'.wasWholeLineWrite = m.wasWholeLineWrite

theorem SameEntry.refl (m : Mshr) : SameEntry m m := ⟨rfl, rfl, rfl, rfl, rfl, rfl, rfl⟩

theorem SameEntry.trans {m m' m'' : Mshr} (a : SameEntry m m') (b : SameEntry m' m'') :
    SameEntry m m'' :=
  ⟨b.id.trans a.id, b.blkAddr.trans a.blkAddr, b.isSecure.trans a.isSecure,
    b.isUncacheable.trans a.isUncacheable, b.inService.trans a.inService,
    b.isForward.trans a.isForward, b.wasWholeLineWrite.trans a.wasWholeLineWrite⟩

theorem front_ok {m : Mshr} {t : Target} (h : m.front = .ok t) :
    ∃ ts, m.targets.list = t :: ts := by
  unfold front at h
  split at h
  · cases h
  · next ts he =>
    cases h
    exact ⟨ts, he⟩

theorem allocateTarget_spec {m m' : Mshr} {h h' : Heap} {pkt : PacketId} {a : Bool}
    (hr : m.allocateTarget h pkt a = .ok (h', m')) :
    SameEntry m m' ∧ SameLocks h h' ∧ (∀ i, i ≠ pkt → h' i = h i) ∧
      ∃ first rest, m.targets.list = first :: rest ∧
        ((m'.targets.list = first :: rest ++ [⟨pkt, .fromCPU, a⟩] ∧
            m'.deferredTargets.list = m.deferredTargets.list) ∨
          (m'.targets.list = first :: rest ∧
            m'.deferredTargets.list = m.deferredTargets.list ++ [⟨pkt, .fromCPU, a⟩])) := by
  simp only [allocateTarget, bind_ok_iff, ensure_ok_iff, exists_const] at hr
  obtain ⟨_, first, hf, d, _, hr⟩ := hr
  obtain ⟨rest, hl⟩ := front_ok hf
  cases d with
  | false =>
    simp only [Bool.false_eq_true, if_false, pure_ok_iff, Prod.mk.injEq] at hr
    obtain ⟨rfl, rfl⟩ := hr
    refine ⟨⟨rfl, rfl, rfl, rfl, rfl, rfl, rfl⟩, SameLocks.refl h, fun _ _ => rfl,
      first, rest, hl, Or.inl ⟨?_, rfl⟩⟩
    simp only [TargetList.add_list, hl]
  | true =>
    simp only [if_true, pure_ok_iff, Prod.mk.injEq] at hr
    obtain ⟨rfl, rfl⟩ := hr
    refine ⟨⟨rfl, rfl, rfl, rfl, rfl, rfl, rfl⟩, ?_, ?_, first, rest, hl, Or.inr ⟨hl, ?_⟩⟩
    · split
      · exact sameLocks_replaceUpgrade h pkt
      · exact SameLocks.refl h
    · intro i hi
      split
      · exact Function.update_of_ne hi _ _
      · rfl
    · exact TargetList.add_list _ _ _

/-- Deferred targets have been moved to the end of the targets, in order. -/
structure Promoted (m m' : Mshr) : Prop where
  entry : SameEntry m m'
  moved : ∃ ts, m'.targets.list = m.targets.list ++ ts ∧
    m.deferredTargets.list = ts ++ m'.deferredTargets.list

theorem Promoted.refl (m : Mshr) : Promoted m m :=
  ⟨SameEntry.refl m, [], (List.append_nil _).symm, rfl⟩

theorem Promoted.trans {m m' m'' : Mshr} (a : Promoted m m') (b : Promoted m' m'') :
    Promoted m m'' := by
  obtain ⟨ts, ht, hd⟩ := a.moved
  obtain ⟨us, hu, he⟩ := b.moved
  refine ⟨a.entry.trans b.entry, ts ++ us, ?_, ?_⟩
  · rw [hu, ht, List.append_assoc]
  · rw [hd, he, List.append_assoc]

theorem Promoted.lists {m m' : Mshr} (a : Promoted m m') :
    m'.targets.list ++ m'.deferredTargets.list = m.targets.list ++ m.deferredTargets.list := by
  obtain ⟨ts, ht, hd⟩ := a.moved
  rw [ht, hd, List.append_assoc]

theorem Promoted.pkts {m m' : Mshr} (a : Promoted m m') : m'.pkts = m.pkts :=
  congrArg (List.map Target.pkt) a.lists

theorem spanChecked_spec {pred : Target → Except Assertion Bool} {l : List Target}
    {r : List Target × List Target} (h : spanChecked pred l = .ok r) : l = r.1 ++ r.2 := by
  induction l generalizing r with
  | nil =>
    cases h
    rfl
  | cons t ts ih =>
    simp only [spanChecked, bind_ok_iff] at h
    obtain ⟨b, _, h⟩ := h
    cases b with
    | false =>
      cases h
      rfl
    | true =>
      simp only [if_true, bind_ok_iff, pure_ok_iff] at h
      obtain ⟨u, hu, rfl⟩ := h
      exact congrArg (t :: ·) (ih hu)

theorem promoteIf_spec {m m' : Mshr} {h : Heap} {pred : Target → Except Assertion Bool}
    (hr : m.promoteIf h pred = .ok m') : Promoted m m' := by
  simp only [promoteIf, bind_ok_iff, ensure_ok_iff, exists_const, pure_ok_iff] at hr
  obtain ⟨_, r, hs, rfl⟩ := hr
  refine ⟨⟨rfl, rfl, rfl, rfl, rfl, rfl, rfl⟩, r.1, rfl, ?_⟩
  rw [TargetList.populateFlags_list]
  exact spanChecked_spec hs

theorem promoteReadable_spec {m m' : Mshr} {h : Heap} (hr : m.promoteReadable h = .ok m') :
    Promoted m m' := by
  unfold promoteReadable at hr
  split at hr
  · cases hr
    exact Promoted.refl m
  · simp only [bind_ok_iff] at hr
    obtain ⟨b, _, hr⟩ := hr
    cases b with
    | true =>
      cases hr
      exact Promoted.refl m
    | false => exact promoteIf_spec hr

theorem promoteWritable_spec {m m' : Mshr} {h : Heap} (hr : m.promoteWritable h = .ok m') :
    Promoted m m' := by
  unfold promoteWritable at hr
  split at hr
  · cases hr
    exact Promoted.refl m
  · split at hr
    · simp only [bind_ok_iff] at hr
      obtain ⟨inv, _, down, _, hr⟩ := hr
      split at hr
      · cases hr
        exact Promoted.refl m
      · simp only [bind_ok_iff, ensure_ok_iff, exists_const] at hr
        obtain ⟨e, mv⟩ := promoteIf_spec hr.2
        exact ⟨⟨e.id, e.blkAddr, e.isSecure, e.isUncacheable, e.inService, e.isForward,
          e.wasWholeLineWrite⟩, mv⟩
    · cases hr
      exact Promoted.refl m

theorem promotable_append (h : Heap) (b : Bool) (l : List Target) :
    (promotable h b l).1 ++ (promotable h b l).2 = l := by
  cases l with
  | nil => rfl
  | cons t ts =>
    simp only [promotable, List.span_eq_takeWhile_dropWhile]
    split
    · split <;> rfl
    · exact List.takeWhile_append_dropWhile

theorem promoteDeferredTargets_some {m m' : Mshr} {h : Heap}
    (hr : m.promoteDeferredTargets h = some m') : Promoted m m' := by
  unfold promoteDeferredTargets at hr
  split at hr
  · cases hr
  · cases hr
    refine ⟨⟨rfl, rfl, rfl, rfl, rfl, rfl, rfl⟩, _, TargetList.populateFlags_list _ h, ?_⟩
    rw [TargetList.populateFlags_list]
    exact (promotable_append h _ _).symm

theorem promoteDeferredTargets_none {m : Mshr} {h : Heap}
    (hr : m.promoteDeferredTargets h = none) :
    m.targets.list = [] ∧ m.deferredTargets.list = [] := by
  unfold promoteDeferredTargets at hr
  split at hr
  · next he => simpa only [Bool.and_eq_true, List.isEmpty_iff] using he
  · cases hr

/-! The targets that a response services, and what the MSHR keeps. -/

/-- The first locked read of a list, behind the targets ahead of it. -/
def lockAt (h : Heap) : List Target → Option (List Target × Target)
  | [] => none
  | t :: ts =>
    if (h t.pkt).cmd = .lockedRMWReadReq then some ([], t)
    else (lockAt h ts).map fun r => (t :: r.1, r.2)

/-- The locked read that a response services; one that invalidates the line gets
no further than the first target. -/
def servicedLock (h : Heap) (cmd : MemCmd) (l : List Target) : Option (List Target × Target) :=
  lockAt h (if cmd = .readRespWithInvalidate then l.take 1 else l)

/-- Either the ready targets leave the list, or the last of them is a locked
read that stays at the head of what is kept. -/
inductive Split (h : Heap) (lock : Option (List Target × Target)) (l ready left : List Target) :
    Prop
  | gone (hlock : lock = none) (perm : (ready ++ left).Perm l)
      (unlocked : ∀ t ∈ ready, t.source = .fromCPU → (h t.pkt).cmd ≠ .lockedRMWReadReq)
  | stays (pre rest : List Target) (t : Target) (hlock : lock = some (pre, t))
      (hready : ready = pre ++ [t]) (hleft : left = t :: rest) (hl : l = pre ++ t :: rest)
      (locked : (h t.pkt).cmd = .lockedRMWReadReq)
      (unlocked : ∀ x ∈ pre, (h x.pkt).cmd ≠ .lockedRMWReadReq)

theorem splitLocked_split (h : Heap) (l : List Target) :
    Split h (lockAt h l) l (splitLocked h l).1 (splitLocked h l).2 := by
  induction l with
  | nil => exact .gone rfl (List.Perm.refl _) (fun _ ht => absurd ht List.not_mem_nil)
  | cons t ts ih =>
    unfold splitLocked lockAt
    split
    · next hl => exact .stays [] ts t rfl rfl rfl rfl hl (fun _ hx => absurd hx List.not_mem_nil)
    · next hl =>
      cases ih with
      | gone hlock perm unlocked =>
        refine .gone (by rw [hlock]; rfl) (perm.cons t) ?_
        rintro x hx hs
        rcases List.mem_cons.mp hx with rfl | hx
        · exact hl
        · exact unlocked x hx hs
      | stays pre rest u hlock hready hleft hts locked unlocked =>
        refine .stays (t :: pre) rest u (by rw [hlock]; rfl) ?_ hleft ?_ locked ?_
        · rw [hready]
          rfl
        · rw [hts]
          rfl
        · rintro x hx
          rcases List.mem_cons.mp hx with rfl | hx
          · exact hl
          · exact unlocked x hx

theorem serviceable_split {h : Heap} {cmd : MemCmd} {l : List Target}
    {r : List Target × List Target} (hr : serviceable h cmd l = .ok r) :
    Split h (servicedLock h cmd l) l r.1 r.2 := by
  unfold serviceable at hr
  unfold servicedLock
  split at hr
  · next hc =>
    rw [if_pos hc]
    cases l with
    | nil => cases hr
    | cons t ts =>
      simp only [bind_ok_iff, ensure_ok_iff, exists_const] at hr
      obtain ⟨_, hr⟩ := hr
      simp only [List.take_succ_cons, List.take_zero, lockAt, Option.map_none]
      split at hr
      · next hl =>
        cases hr
        rw [if_pos hl]
        exact .stays [] ts t rfl rfl rfl rfl hl (fun _ hx => absurd hx List.not_mem_nil)
      · next hl =>
        simp only [bind_ok_iff, ensure_ok_iff, exists_const, pure_ok_iff] at hr
        obtain ⟨_, rfl⟩ := hr
        rw [if_neg hl]
        refine .gone rfl ?_ ?_
        · have hp := List.filter_append_perm (fun x : Target => decide (x.source ≠ .fromCPU)) ts
          simp only [decide_not, Bool.not_not] at hp ⊢
          exact hp.cons t
        · rintro x hx hs
          rcases List.mem_cons.mp hx with rfl | hx
          · exact hl
          · simp [hs] at hx
  · next hc =>
    cases hr
    rw [if_neg hc]
    exact splitLocked_split h l

theorem extractServiceableTargets_spec {m m' : Mshr} {h : Heap} {cmd : MemCmd} {l : TargetList}
    (hr : m.extractServiceableTargets h cmd = .ok (l, m')) :
    SameEntry m m' ∧ m'.deferredTargets = m.deferredTargets ∧
      serviceable h cmd m.targets.list = .ok (l.list, m'.targets.list) := by
  simp only [extractServiceableTargets, bind_ok_iff, pure_ok_iff, Prod.mk.injEq] at hr
  obtain ⟨r, hs, rfl, rfl⟩ := hr
  refine ⟨⟨rfl, rfl, rfl, rfl, rfl, rfl, rfl⟩, rfl, ?_⟩
  simp only [TargetList.populateFlags_list]
  exact hs

theorem deferSnoop_spec {m m' : Mshr} {h h' : Heap} {p q : Packet} {copy : PacketId} {w : Bool}
    (hr : m.deferSnoop h p copy w = .ok (q, h', m')) :
    SameEntry m m' ∧ (∀ i, i ≠ copy → h' i = h i) ∧
      m'.targets.list = m.targets.list ++ [⟨copy, .fromSnoop, false⟩] ∧
      m'.deferredTargets = m.deferredTargets := by
  simp only [deferSnoop, bind_ok_iff, pure_ok_iff, Prod.mk.injEq] at hr
  obtain ⟨q', _, rfl, rfl, rfl⟩ := hr
  exact ⟨⟨rfl, rfl, rfl, rfl, rfl, rfl, rfl⟩, fun i hi => Function.update_of_ne hi _ _,
    TargetList.add_list _ _ _, rfl⟩

/-- The snoop is saved at the end of the targets, or nothing is. -/
theorem saveSnoop_spec {m m' : Mshr} {h h' : Heap} {p q : Packet} {copy : PacketId}
    {w saved : Bool}
    (hr : (if saved = true then m.deferSnoop h p copy w else pure (p, h, m)) = .ok (q, h', m')) :
    SameEntry m m' ∧ (∀ i, i ≠ copy → h' i = h i) ∧ m'.deferredTargets = m.deferredTargets ∧
      ((saved = false ∧ m'.targets.list = m.targets.list) ∨
        (saved = true ∧ m'.targets.list = m.targets.list ++ [⟨copy, .fromSnoop, false⟩])) := by
  cases saved with
  | true =>
    obtain ⟨hentry, hheap, htargets, hdeferred⟩ := deferSnoop_spec hr
    exact ⟨hentry, hheap, hdeferred, Or.inr ⟨rfl, htargets⟩⟩
  | false =>
    cases hr
    exact ⟨SameEntry.refl m, fun _ _ => rfl, rfl, Or.inl ⟨rfl, rfl⟩⟩

theorem replaceUpgrades_targets (m : Mshr) (h : Heap) (i : PacketId) :
    SameLock (h i) ((m.targets.replaceUpgrades h).1 i) ∧
      (i ∉ m.pkts → (m.targets.replaceUpgrades h).1 i = h i) := by
  refine ⟨TargetList.sameLocks_replaceUpgrades _ h i, fun hi => ?_⟩
  refine TargetList.replaceUpgrades_frame _ h fun hm => hi ?_
  rw [pkts, List.map_append]
  exact List.mem_append_left _ hm

theorem replaceUpgrades_deferred (m : Mshr) (h : Heap) (i : PacketId) :
    SameLock (h i) ((m.deferredTargets.replaceUpgrades h).1 i) ∧
      (i ∉ m.pkts → (m.deferredTargets.replaceUpgrades h).1 i = h i) := by
  refine ⟨TargetList.sameLocks_replaceUpgrades _ h i, fun hi => ?_⟩
  refine TargetList.replaceUpgrades_frame _ h fun hm => hi ?_
  rw [pkts, List.map_append]
  exact List.mem_append_right _ hm

-- the deferred targets as a snoop finds them that takes the line away, or does not
theorem takeAway_spec {m : Mshr} {h : Heap} {takesAway : Bool} {hd : Heap × TargetList}
    (heq : (if takesAway = true then m.deferredTargets.replaceUpgrades h
      else (h, m.deferredTargets)) = hd) :
    (∀ i, SameLock (h i) (hd.1 i) ∧ (i ∉ m.pkts → hd.1 i = h i)) ∧
      hd.2.list = m.deferredTargets.list := by
  subst heq
  split
  · exact ⟨replaceUpgrades_deferred m h, TargetList.replaceUpgrades_list _ h⟩
  · exact ⟨fun i => ⟨SameLock.refl _, fun _ => rfl⟩, rfl⟩

/-- A snoop changes no list, or saves one copy at the end of the targets. -/
theorem handleSnoop_spec {m : Mshr} {h : Heap} {p : Packet} {copy : PacketId} {r : Snooped}
    (hr : m.handleSnoop h p copy = .ok r) :
    SameEntry m r.mshr ∧
      (∀ i, i ≠ copy → SameLock (h i) (r.heap i) ∧ (i ∉ m.pkts → r.heap i = h i)) ∧
      r.mshr.deferredTargets.list = m.deferredTargets.list ∧
      ((r.copied = false ∧ r.mshr.targets.list = m.targets.list) ∨
        (r.copied = true ∧ m.targets.list ≠ [] ∧
          r.mshr.targets.list = m.targets.list ++ [⟨copy, .fromSnoop, false⟩])) := by
  simp only [handleSnoop, bind_ok_iff, ensure_ok_iff, exists_const] at hr
  obtain ⟨w, _, _, hr⟩ := hr
  split at hr
  · split at hr
    · cases hr
      refine ⟨⟨rfl, rfl, rfl, rfl, rfl, rfl, rfl⟩, fun i _ => ?_, ?_, Or.inl ⟨rfl, ?_⟩⟩
      · obtain ⟨lt, ft⟩ := replaceUpgrades_targets m h i
        obtain ⟨ld, fd⟩ := replaceUpgrades_deferred m (m.targets.replaceUpgrades h).1 i
        exact ⟨lt.trans ld, fun hi => (fd hi).trans (ft hi)⟩
      · exact TargetList.replaceUpgrades_list _ _
      · exact TargetList.replaceUpgrades_list _ _
    · cases hr
      exact ⟨SameEntry.refl m, fun i _ => ⟨SameLock.refl _, fun _ => rfl⟩, rfl, Or.inl ⟨rfl, rfl⟩⟩
  · revert hr
    generalize heq : (if (w || p.req.isCacheInvalidate) = true then
      m.deferredTargets.replaceUpgrades h else (h, m.deferredTargets)) = hd
    obtain ⟨hheap, hlist⟩ := takeAway_spec heq
    intro hr
    simp only [bind_ok_iff] at hr
    obtain ⟨first, hf, hr⟩ := hr
    obtain ⟨rest, hne⟩ := front_ok hf
    split at hr
    · cases hr
      exact ⟨⟨rfl, rfl, rfl, rfl, rfl, rfl, rfl⟩, fun i _ => hheap i, hlist, Or.inl ⟨rfl, rfl⟩⟩
    · simp only [bind_ok_iff] at hr
      obtain ⟨⟨q, h', m'⟩, hs, hr⟩ := hr
      -- the post flags and the sharers bit change neither the entry nor the lists
      have hlists : r.mshr.targets.list = m'.targets.list ∧
          r.mshr.deferredTargets.list = m'.deferredTargets.list ∧ r.heap = h' ∧
          SameEntry m' r.mshr ∧ r.copied = (m.pendingModified || p.cmd.isInvalidate) := by
        split at hr <;> cases hr <;>
          exact ⟨rfl, rfl, rfl, ⟨rfl, rfl, rfl, rfl, rfl, rfl, rfl⟩, rfl⟩
      obtain ⟨e1, e2, e3, e4, e5⟩ := hlists
      obtain ⟨f1, f2, f3, f4⟩ := saveSnoop_spec hs
      have hentry : SameEntry m m' :=
        ⟨f1.id, f1.blkAddr, f1.isSecure, f1.isUncacheable, f1.inService, f1.isForward,
          f1.wasWholeLineWrite⟩
      refine ⟨hentry.trans e4, fun i hi => ?_, ?_, ?_⟩
      · rw [e3, f2 i hi]
        exact hheap i
      · rw [e2, f3]
        exact hlist
      · rw [e1, e5]
        rcases f4 with ⟨hsaved, htargets⟩ | ⟨hsaved, htargets⟩
        · exact Or.inl ⟨hsaved, htargets⟩
        · refine Or.inr ⟨hsaved, ?_, htargets⟩
          rw [hne]
          exact List.cons_ne_nil _ _

end Mshr

end PnmCompaction.Cache
