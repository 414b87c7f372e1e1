import PnmCompaction.Cache.Mshr
import PnmCompaction.Cache.Block

/-!
# Servicing the targets of an MSHR

`Cache::serviceMSHRTargets` (cache.cc 699-985). The loop goes over the list
that `extractServiceableTargets` has cut off and changes the packets in place;
a locked read is in that list and still the first target of the MSHR. A failed
assertion is reported together with the target that was being serviced.
-/

namespace PnmCompaction.Cache

open PnmCompaction.Lib.Checked PnmCompaction.Lib.LittleEndian

/-- A failed assertion and the packet of the target in whose turn it failed. -/
structure Fault where
  assertion : Assertion
  target : Option PacketId
  deriving DecidableEq, Repr

/-- The variables of the loop. `next` is the next unused packet identity;
`scheduled` records the calls of `cpuSidePort.schedTimingResp`, `snoopResps`
those of `memSidePort.schedTimingSnoopResp`. -/
structure Loop where
  heap : Heap
  next : PacketId
  mshr : Mshr
  blk : Option Blk
  scheduled : List PacketId
  snoopResps : List PacketId
  deleted : List PacketId
  fromCore : Bool
  fromPref : Bool

variable (c : Params) (o : Surroundings) (resp : Packet) (inv : Bool)

/-- cache.cc 797-798: the target is satisfied from the block, not from the
response. -/
def useBlock (m : Mshr) (blk : Option Blk) : Bool :=
  blkValid blk && (!m.isForward || !resp.cmd.hasData)

/-- cache.cc 744-777: a software prefetch has been acknowledged when it missed. -/
def softPrefetch (s : Loop) (t : Target) : Except Assertion Loop :=
  let p := s.heap t.pkt
  let s := { s with deleted := s.deleted ++ [t.pkt] }
  if p.isRequest && p.cmd.needsWritable then
    match s.blk with
    | none => .error .prefetchNoBlock
    | some b => do
      let b ← b.setDirty
      ensure (c.isReadOnly = false) .prefetchReadOnly
      pure { s with blk := some b }
  else pure s

def checkWriteLine (blk : Option Blk) (p : Packet) : Except Assertion PUnit :=
  if p.cmd = .writeLineReq then do
    ensure (resp.cmd.isError = false) .writeLineError
    ensure (blk.isSome = true) .writeLineNoBlock
    ensure (blk.any Blk.isWritable = true) .writeLineNotWritable
  else pure ⟨⟩

/-- cache.cc 797-838. A locked read leaves a fresh packet in the MSHR and hides
the block. -/
def fromBlock (s : Loop) (t : Target) : Except Assertion Loop :=
  match s.blk with
  | none => .error .satisfyInvalid
  | some b => do
    let down ← s.mshr.hasPostDowngrade
    let r ← satisfyRequest c o (s.heap t.pkt) b true down
    let s := { s with heap := Function.update s.heap t.pkt r.1 }
    if r.1.cmd = .lockedRMWReadReq then
      let m ← s.mshr.updateLockedRMWReadTarget t.pkt s.next
      pure { s with
        heap := Function.update s.heap s.next { Mshr.clearFlags r.1 with data := [] }
        next := s.next + 1
        mshr := m
        blk := some { r.2 with writable := false, readable := false } }
    else pure { s with blk := some r.2 }

def forwardData (p : Packet) : Except Assertion Packet :=
  if resp.cmd.isRead then
    if resp.addr = p.addr ∧ resp.isSecure = p.isSecure ∧ p.size ≤ resp.size then
      p.setData resp.data
    else if resp.cmd.hasData && p.cmd.hasData then do
      ensure (p.isMaskedWrite = false) .maskedData
      pure { p with data := memcpy p.data resp.data (min resp.size p.size) }
    else pure p
  else do
    ensure (p.cmd.hasRespData = false) .targetHasRespData
    pure p

/-- cache.cc 855-899, the response is passed on without a fill. -/
def forwardResponse (s : Loop) (t : Target) : Except Assertion Loop := do
  let blk := if inv && blkValid s.blk then s.blk.map Blk.invalidate else s.blk
  let p := s.heap t.pkt
  let q ← (if !resp.cmd.isError && p.isRequest then forwardData resp p else pure p)
  let q ← (if p.isRequest then q.copyResponderFlags resp else pure q)
  pure { s with heap := Function.update s.heap t.pkt q, blk := blk }

def satisfyTarget (s : Loop) (t : Target) : Except Assertion Loop :=
  if useBlock resp s.mshr s.blk then fromBlock c o s t
  else if resp.cmd = .upgradeFailResp then do
    let cmd := (s.heap t.pkt).cmd
    ensure (cmd = .storeCondReq ∨ cmd = .storeCondFailReq ∨ cmd = .scUpgradeFailReq)
      .upgradeFailTarget
    pure s
  else if resp.cmd = .lockedRMWWriteResp then pure s
  else forwardResponse resp inv s t

def responseFor (m : Mshr) (p : Packet) : Except Assertion Packet := do
  let q ← p.makeResponse
  let q ← (if resp.cmd.isError then q.copyError resp else pure q)
  if q.cmd = .readResp then
    let post ← (if inv then pure true else m.hasPostInvalidate)
    pure (if post then { q with cmd := .readRespWithInvalidate } else q)
  else pure q

/-- cache.cc 901-933: a target that is a response already is dropped. -/
def respondTo (s : Loop) (t : Target) : Except Assertion Loop :=
  let p := s.heap t.pkt
  if p.isRequest && p.cmd.needsResponse then do
    let q ← responseFor resp inv s.mshr p
    pure { s with
      heap := Function.update s.heap t.pkt q
      scheduled := s.scheduled ++ [t.pkt] }
  else pure s

def serviceCPU (s : Loop) (t : Target) : Except Assertion Loop :=
  let s := { s with fromCore := true }
  let p := s.heap t.pkt
  if p.cmd.isSWPrefetch then softPrefetch c s t
  else do
    checkWriteLine resp s.blk p
    let s ← satisfyTarget c o resp inv s t
    respondTo resp inv s t

def servicePrefetcher (s : Loop) (t : Target) : Except Assertion Loop := do
  ensure ((s.heap t.pkt).cmd = .hardPFReq) .notHardPrefetch
  pure { s with fromPref := true, deleted := s.deleted ++ [t.pkt] }

def serviceSnoop (s : Loop) (t : Target) : Except Assertion Loop := do
  ensure (resp.cmd.isError = false) .snoopWithError
  let post ← s.mshr.hasPostInvalidate
  ensure (inv = false ∨ resp.cmd = .invalidateResp ∨ resp.req.isCacheMaintenance = true ∨
    post = true) .snoopWithInvalidate
  let r ← handleSnoop c o (s.heap t.pkt) s.blk true post
  pure { s with
    heap := Function.update s.heap t.pkt r.pkt
    blk := r.blk
    snoopResps := if r.responded then s.snoopResps ++ [t.pkt] else s.snoopResps
    deleted := if r.deleted then s.deleted ++ [t.pkt] else s.deleted }

def serviceTarget (s : Loop) (t : Target) : Except Assertion Loop :=
  match t.source with
  | .fromCPU => serviceCPU c o resp inv s t
  | .fromPrefetcher => servicePrefetcher s t
  | .fromSnoop => serviceSnoop c o resp inv s t

def serviceAll (s : Loop) : List Target → Except Fault Loop
  | [] => pure s
  | t :: ts => do
    let s ← (serviceTarget c o resp inv s t).mapError (⟨·, some t.pkt⟩)
    serviceAll s ts

/-- cache.cc 715-729: the write half of a locked access removes the lock. -/
def popLocked (h : Heap) (m : Mshr) : Except Fault Mshr := do
  let first ← m.front.mapError (⟨·, none⟩)
  if resp.cmd = .lockedRMWWriteResp then
    ensure ((h first.pkt).cmd = .lockedRMWReadReq) ⟨.lockedWriteFirst, some first.pkt⟩
    pure m.popTarget
  else pure m

def finishBlock (hasFromCache : Bool) (s : Loop) : Except Assertion (Option Blk) :=
  let blk := if !s.fromCore && s.fromPref then s.blk.map fun b => { b with prefetched := true }
    else s.blk
  if s.mshr.hasLockedRMWReadTarget s.heap then pure blk
  else
    let blk := maintainClusivity c hasFromCache blk
    if blkValid blk then do
      let post ← (if inv then pure true else s.mshr.hasPostInvalidate)
      let down ← (if post then pure false else s.mshr.hasPostDowngrade)
      if post then pure (blk.map Blk.invalidate)
      else if down then pure (blk.map fun b => { b with writable := false })
      else pure blk
    else pure blk

def isInvalidateFor (m : Mshr) : Bool := resp.cmd.isInvalidate && !m.wasWholeLineWrite

def serviceMSHRTargets (h : Heap) (next : PacketId) (m : Mshr) (blk : Option Blk) :
    Except Fault Loop := do
  let m' ← popLocked resp h m
  let r ← (m'.extractServiceableTargets h resp.cmd).mapError (⟨·, none⟩)
  let s ← serviceAll c o resp (isInvalidateFor resp m)
    ⟨h, next, r.2, blk, [], [], [], false, false⟩ r.1.list
  let blk ← (finishBlock c (isInvalidateFor resp m) r.1.hasFromCache s).mapError (⟨·, none⟩)
  pure { s with blk := blk }

/-! ## A small cache

Plain values for the concrete calls and runs of this development: one-byte
lines, nothing above the cache, and packets without flags. -/

def Params.plain : Params := ⟨1, false, false, false, false⟩

def Surroundings.silent : Surroundings :=
  ⟨fun _ _ => true, fun _ _ => none, fun _ => ⟨false, false, false, false⟩⟩

def Packet.plain (cmd : MemCmd) (uncacheable : Bool) : Packet :=
  ⟨cmd, ⟨uncacheable, false, false, false, false, []⟩, 0, 1, false, false, false, false, false,
    false, false, false, [0]⟩

def Blk.plain : Blk := ⟨true, true, true, false, false, [0]⟩

end PnmCompaction.Cache
