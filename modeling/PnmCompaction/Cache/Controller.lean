import PnmCompaction.Cache.Service
import PnmCompaction.Cache.Tags

/-!
# The cache as a state machine

The timing-mode entry points of the cache: requests from the CPU side
(base.cc 274-533, cache.cc 301-490), responses (base.cc 547-708), snoops
(cache.cc 1287-1403), sends (base.cc 1956-2083, cache.cc 492-575, 1446-1522)
and hardware prefetches. A failed assertion ends the simulation, so a step that
fails one is not enabled.
-/

namespace PnmCompaction.Cache

open PnmCompaction.Lib.Checked PnmCompaction.Lib.LittleEndian

/-- The state of one cache. `writes` are the uncacheable writes in the write
buffer or below, `outstanding` names the MSHRs that wait for a response from
below, `delivered` records the packets handed to the CPU side, in order. -/
structure State where
  heap : Heap
  next : PacketId
  tags : Tags
  mshrs : List Mshr
  nextMshr : ℕ
  writes : List PacketId
  outstanding : List ℕ
  delivered : List PacketId

def setMshr (l : List Mshr) (m : Mshr) : List Mshr := l.map fun x => if x.id = m.id then m else x

def eraseMshr (l : List Mshr) (id : ℕ) : List Mshr := l.filter (·.id ≠ id)

variable (c : Params) (e : Environment)

/-! ## Responses -/

def isFill (resp : Packet) (m : Mshr) : Bool :=
  !m.isForward && (resp.cmd.isRead || resp.cmd == .upgradeResp || m.wasWholeLineWrite)

/-- The block for the response, base.cc 627-638: the tags, whether it is the
temporary block, and the block. -/
def responseBlock (s : State) (m : Mshr) (resp : Packet) :
    Except Assertion (Tags × Bool × Option Blk) :=
  let found := s.tags.blocks (resp.line c.blkSize)
  if isFill resp m && !resp.cmd.isError then do
    let allocate := match e.writeAllocate with
      | some a => if m.wasWholeLineWrite then a else m.targets.allocOnFill
      | none => m.targets.allocOnFill
    let r ← handleFill c e s.mshrs s.heap s.tags resp found allocate
    pure (r.1, r.2.1, some r.2.2)
  else pure (s.tags, false, found)

/-- base.cc 640-662: deferred targets that the block can satisfy. -/
def promoteTargets (h : Heap) (resp : Packet) (m : Mshr) (blk : Option Blk) :
    Except Assertion (Mshr × Option Blk) :=
  if m.hasLockedRMWReadTarget h then pure (m, blk)
  else do
    let cleaned := blkValid blk && resp.cmd.isClean && !resp.cmd.isInvalidate
    let blk := if cleaned then blk.map fun b => { b with readable := true } else blk
    let m ← (if cleaned then m.promoteReadable h else pure m)
    let m ← (if blk.any Blk.isWritable && !resp.req.isCacheInvalidate then m.promoteWritable h
      else pure m)
    pure (m, blk)

/-- base.cc 665-700: what becomes of the MSHR and of the block. -/
def finishResp (s : State) (l : Line) (tags : Tags) (temp : Bool) (r : Loop) :
    Except Assertion State := do
  let s := { s with heap := r.heap, next := r.next, delivered := s.delivered ++ r.scheduled }
  if r.mshr.hasLockedRMWReadTarget r.heap then
    pure { s with tags := tags.store l temp r.blk, mshrs := setMshr s.mshrs r.mshr }
  else
    -- the temporary block is evicted
    (if temp then evictBlock c (r.blk.getD (Blk.inserted c)) else pure ⟨⟩)
    match r.mshr.promoteDeferredTargets r.heap with
    | some m => do
      ensure (m.inService = true) .notInService
      let blk := r.blk.map fun b => { b with readable := false }
      pure { s with
        tags := if temp then { tags with temp := none } else tags.store l false blk
        mshrs := setMshr s.mshrs { m with inService := false } }
    | none => do
      r.mshr.deallocate
      pure { s with
        tags := if temp then { tags with temp := none } else tags.store l false r.blk
        mshrs := eraseMshr s.mshrs r.mshr.id }

def recvMSHRResp (s : State) (m : Mshr) (resp : Packet) : Except Assertion State := do
  ensure (resp.cmd.isResponse = true) .respNotResponse
  let _ ← m.front
  ensure (m.wasWholeLineWrite = true → resp.cmd.isInvalidate = true) .wholeLineNotInvalidate
  let f ← responseBlock c e s m resp
  let p ← promoteTargets s.heap resp m f.2.2
  let r ← (serviceMSHRTargets c e.toSurroundings resp s.heap s.next p.1 p.2).mapError
    Fault.assertion
  finishResp c s (resp.line c.blkSize) f.1 f.2.1 r

/-! ## Requests -/

def allocOnFill (cmd : MemCmd) : Bool :=
  !c.mostlyExcl || cmd == .writeLineReq || cmd == .readReq || cmd == .writeReq ||
    cmd.isPrefetch || cmd.isLLSC

def allocateMissBuffer (s : State) (pkt : PacketId) : State :=
  { s with
    mshrs := s.mshrs ++ [Mshr.allocate s.nextMshr ((s.heap pkt).getBlockAddr c.blkSize) c.blkSize
      s.heap pkt (allocOnFill c (s.heap pkt).cmd)]
    nextMshr := s.nextMshr + 1 }

def deliver (s : State) (pkt : PacketId) : Except Assertion State := do
  let q ← (s.heap pkt).makeResponse
  pure { s with heap := Function.update s.heap pkt q, delivered := s.delivered ++ [pkt] }

/-- base.cc 282-308: the read half of a locked access hits. The MSHR that holds
the lock gets a packet of its own and is in service with nothing below. -/
def lockLine (s : State) (pkt : PacketId) : Except Assertion State := do
  let p := s.heap pkt
  let l := p.line c.blkSize
  ensure (findMatch s.mshrs l = none) .lockedReadMSHR
  let h := Function.update s.heap s.next { Mshr.clearFlags p with data := [] }
  let m ← (Mshr.allocate s.nextMshr (p.getBlockAddr c.blkSize) c.blkSize h s.next
    (allocOnFill c p.cmd)).markInService false
  match s.tags.blocks l with
  | none => .error .lockedNoBlock
  | some b =>
    pure { s with
      heap := h
      next := s.next + 1
      mshrs := s.mshrs ++ [m]
      nextMshr := s.nextMshr + 1
      tags := s.tags.store l false (some { b with readable := false, writable := false }) }

/-- base.cc 309-327: the write half answers the read half with a made-up
response. -/
def unlockLine (s : State) (pkt : PacketId) : Except Assertion State := do
  let p := s.heap pkt
  ensure (p.cmd.isWrite = true) .lockedWriteRead
  match findMatch s.mshrs (p.line c.blkSize) with
  | none => .error .lockedWriteNoMSHR
  | some m => recvMSHRResp c e s m { Mshr.clearFlags p with cmd := .lockedRMWWriteResp, data := [] }

def handleTimingReqHit (s : State) (pkt : PacketId) : Except Assertion State := do
  ensure ((s.heap pkt).req.isUncacheable = false) .uncacheableHit
  let s ← (if (s.heap pkt).cmd.isLockedRMW then
      if (s.heap pkt).cmd.isRead then lockLine c s pkt else unlockLine c e s pkt
    else pure s)
  if (s.heap pkt).cmd.needsResponse then deliver s pkt else pure s

/-- `BaseCache::handleTimingReqMiss`, base.cc 355-451. Evictions and clean
writes are sunk or go to the write buffer. -/
def baseTimingReqMiss (s : State) (pkt : PacketId) : Except Assertion State :=
  let p := s.heap pkt
  let l := p.line c.blkSize
  match findMatch s.mshrs l with
  | some m => do
    ensure (p.cmd.isWriteback = false) .writebackCoalesced
    if p.cmd = .cleanEvict ∨ p.cmd = .writeClean then pure s
    else
      let r ← m.allocateTarget s.heap pkt (allocOnFill c p.cmd)
      pure { s with heap := r.1, mshrs := setMshr s.mshrs r.2 }
  | none =>
    if p.cmd.isEviction = true ∨ p.cmd = .writeClean then pure s
    else
      match s.tags.blocks l with
      | some b => do
        ensure ((p.cmd.needsWritable = true ∧ b.isWritable = false) ∨
          p.req.isCacheMaintenance = true) .missWritable
        pure (allocateMissBuffer c
          { s with tags := s.tags.store l false (some { b with readable := false }) } pkt)
      | none => pure (allocateMissBuffer c s pkt)

/-- cache.cc 331-366: an uncacheable access goes to the write buffer or to an
MSHR of its own. -/
def uncacheableMiss (s : State) (pkt : PacketId) : Except Assertion State := do
  let p := s.heap pkt
  ensure (s.tags.blocks (p.line c.blkSize) = none) .uncacheableBlock
  if p.cmd.isWrite then pure { s with writes := s.writes ++ [pkt] }
  else
    ensure (p.cmd.isRead = true ∨ p.cmd = .cleanInvalidReq) .uncacheableCommand
    pure (allocateMissBuffer c s pkt)

/-- cache.cc 381-413: a software prefetch is acknowledged at once; a copy goes
on as the miss unless an MSHR for the line exists. -/
def softPrefetchMiss (s : State) (pkt : PacketId) : Except Assertion State := do
  let p := s.heap pkt
  ensure (p.cmd.needsResponse = true) .prefetchNoResponse
  let found := (findMatch s.mshrs (p.line c.blkSize)).isSome
  let s ← deliver s pkt
  if found then pure s
  else
    let pf := s.next
    baseTimingReqMiss c { s with
      heap := Function.update s.heap pf (Mshr.clearFlags p), next := s.next + 1 } pf

def handleTimingReqMiss (s : State) (pkt : PacketId) : Except Assertion State := do
  let p := s.heap pkt
  ensure (p.cmd ≠ .lockedRMWWriteReq) .lockedWriteMiss
  if p.req.isUncacheable then uncacheableMiss c s pkt
  else if p.cmd.isSWPrefetch then softPrefetchMiss c s pkt
  else baseTimingReqMiss c s pkt

def promoteWholeLineWrites (p : Packet) : Packet :=
  if p.cmd = .writeReq ∧ p.size = c.blkSize ∧ p.getOffset c.blkSize = 0 ∧
      p.isMaskedWrite = false then
    { p with cmd := .writeLineReq }
  else p

def baseTimingReq (s : State) (pkt : PacketId) : Except Assertion State := do
  let r ← restoreLocked c s.tags (s.heap pkt)
  let a ← access c e s.mshrs s.heap r.2 r.1
  let s := { s with heap := Function.update s.heap pkt a.2.1, tags := a.2.2 }
  if a.1 then handleTimingReqHit c e s pkt else handleTimingReqMiss c s pkt

def recvTimingReq (s : State) (p : Packet) : Except Assertion State := do
  let pkt := s.next
  let p := promoteWholeLineWrites c p
  let s := { s with heap := Function.update s.heap pkt p, next := s.next + 1 }
  if p.cacheResponding then
    -- a cache above responds; the packet is only passed on as a snoop
    ensure (p.isRequest = true ∧ p.cmd.needsWritable = true ∧ p.responderHadWritable = false)
      .responderNotOwned
    pure s
  else baseTimingReq c e s pkt

/-! ## Snoops -/

/-- `Cache::recvTimingSnoopReq`, cache.cc 1287-1403, without the part that looks
into the write buffer. -/
def recvTimingSnoopReq (s : State) (p : Packet) : Except Assertion State :=
  let l := p.line c.blkSize
  let snoop (s : State) (p : Packet) : Except Assertion State := do
    let r ← handleSnoop c e.toSurroundings p (s.tags.blocks l) false false
    pure { s with tags := s.tags.store l false r.blk }
  match findMatch s.mshrs l with
  | none => snoop s p
  | some m =>
    if p.cmd.mustCheckAbove then pure s
    else do
      let r ← m.handleSnoop s.heap p s.next
      let s := { s with heap := r.heap, next := s.next + 1, mshrs := setMshr s.mshrs r.mshr }
      if r.willRespond then pure s else snoop s r.pkt

/-! ## Sends -/

/-- `Cache::createMissPacket`, cache.cc 492-575: the command of the request to
send, `none` when the target is to be forwarded as it is. -/
def createMissPacket (p : Packet) (blk : Option Blk) (needsWritable wholeLine : Bool) :
    Except Assertion (Option MemCmd) := do
  ensure (p.cmd.isEviction = false) .missEviction
  if p.req.isUncacheable || (!blkValid blk && p.cmd.isUpgrade) || p.cmd == .invalidateReq ||
      p.cmd.isClean then
    pure none
  else
    ensure (p.cmd.needsResponse = true) .missNoResponse
    ensure (p.cmd = .writeLineReq → wholeLine = true) .wholeLineCommand
    if wholeLine then
      ensure (blk.any Blk.isWritable = false) .wholeLineWritable
      pure (some .invalidateReq)
    else if blkValid blk then
      ensure (needsWritable = true) .upgradeNotNeeded
      ensure (blk.any Blk.isWritable = false) .upgradeWritable
      pure (some (if p.cmd.isLLSC then .scUpgradeReq else .upgradeReq))
    else if p.cmd = .scUpgradeFailReq ∨ p.cmd = .storeCondFailReq then
      pure (some .scUpgradeFailReq)
    else if needsWritable then pure (some .readExReq)
    else pure (some (if c.isReadOnly || c.mostlyExcl then .readCleanReq else .readSharedReq))

/-- The command that goes below, base.cc 1991-2030: an answered target is sent
again as a plain read. -/
def sentCommand (p : Packet) (miss : Option MemCmd) : Except Assertion MemCmd :=
  match miss with
  | some cmd => pure cmd
  | none =>
    if p.isRequest then do
      ensure (p.cmd.isWrite = false) .forwardWrite
      pure p.cmd
    else pure .readReq

/-- `BaseCache::sendMSHRQueuePacket`, base.cc 1956-2083, for a send that is
accepted below, or one that has to be tried again. -/
def baseSend (s : State) (m : Mshr) (accepted : Bool) : Except Assertion State := do
  let t ← m.front
  let blk := s.tags.blocks m.line
  let miss ← createMissPacket c (s.heap t.pkt) blk m.targets.needsWritable
    m.targets.isWholeLineWrite
  let m := { m with isForward := miss.isNone }
  let cmd ← sentCommand (s.heap t.pkt) miss
  if accepted then
    let m ← m.markInService (!e.sentShared && e.sentResponding)
    let cleaned := cmd.isClean && blk.any Blk.isDirty
    pure { s with
      mshrs := setMshr s.mshrs m
      outstanding := m.id :: s.outstanding
      tags := if cleaned then s.tags.store m.line false
          (blk.map fun b => { b with writable := false, dirty := false })
        else s.tags }
  else pure { s with mshrs := setMshr s.mshrs m }

/-- `Cache::sendMSHRQueuePacket`, cache.cc 1446-1522: a hardware prefetch looks
into the caches above first, and is dropped when they hold the block. -/
def sendMSHRQueuePacket (s : State) (m : Mshr) (accepted : Bool) : Except Assertion State := do
  let t ← m.front
  if (s.heap t.pkt).cmd = .hardPFReq ∧ c.forwardSnoops = true then
    ensure (s.tags.blocks m.line = none) .prefetchBlockPresent
    let a := e.above (s.heap t.pkt)
    if a.cacheResponding then
      let m ← m.markInService (!a.hasSharers)
      pure { s with mshrs := setMshr s.mshrs m, outstanding := m.id :: s.outstanding }
    else if a.blockCached then
      let m := m.popTarget
      if m.targets.list.isEmpty then
        match m.promoteDeferredTargets s.heap with
        | some m => pure { s with mshrs := setMshr s.mshrs m }
        | none => do
          m.deallocate
          pure { s with mshrs := eraseMshr s.mshrs m.id }
      else pure { s with mshrs := setMshr s.mshrs m }
    else baseSend c e s m accepted
  else baseSend c e s m accepted

/-! ## Steps -/

/-- What can happen to the cache. Packets that arrive are new objects; the
environment of the step comes with it. -/
inductive Action
  | request (p : Packet) (e : Environment)
  | snoop (p : Packet) (e : Environment)
  | send (id : ℕ) (accepted : Bool) (e : Environment)
  | response (id : ℕ) (resp : Packet) (e : Environment)
  /-- the response to an uncacheable write, which is the written packet itself -/
  | writeResponse (pkt : PacketId) (cmd : MemCmd)
  | prefetch (p : Packet) (wbMatch : Bool)
  /-- a downstream cache sets or clears `downstreamPending` -/
  | downstream (id : ℕ) (pending : Bool)
  /-- `memWriteback` and `memInvalidate`, as on a switch of the CPU model -/
  | memInvalidate

/-- base.cc 982-1017: a hardware prefetch gets an MSHR when the line is neither
in the cache nor on its way. -/
def issuePrefetch (s : State) (p : Packet) (wbMatch : Bool) : State :=
  let l := p.line c.blkSize
  if (s.tags.blocks l).isSome || (findMatch s.mshrs l).isSome || wbMatch then s
  else allocateMissBuffer c
    { s with heap := Function.update s.heap s.next p, next := s.next + 1 } s.next

def findMshr (s : State) (id : ℕ) : Option Mshr := s.mshrs.find? (·.id = id)

/-- base.cc 567-573: an uncacheable write is handed on to the CPU side. -/
def recvWriteResp (s : State) (pkt : PacketId) (cmd : MemCmd) : Option State :=
  if pkt ∈ s.writes ∧ cmd.isResponse = true ∧ cmd.isWrite = true ∧ cmd ≠ .lockedRMWWriteResp ∧
      (s.heap pkt).req.isUncacheable = true then
    some { s with
      heap := Function.update s.heap pkt { s.heap pkt with cmd := cmd }
      writes := s.writes.erase pkt
      delivered := s.delivered ++ [pkt] }
  else none

def step (s : State) : Action → Option State
  | .request p e => (recvTimingReq c e s p).toOption
  | .snoop p e => (recvTimingSnoopReq c e s p).toOption
  | .send id accepted e =>
    (findMshr s id).bind fun m =>
      if m.inService then none else (sendMSHRQueuePacket c e s m accepted).toOption
  | .response id resp e =>
    (findMshr s id).bind fun m =>
      -- writes are answered through `writeResponse`; the fake response of a locked
      -- write never comes from below
      if id ∈ s.outstanding ∧ resp.cmd.isWrite = false then
        (recvMSHRResp c e { s with outstanding := s.outstanding.erase id } m resp).toOption
      else none
  | .writeResponse pkt cmd => recvWriteResp s pkt cmd
  | .prefetch p wbMatch => if p.cmd = .hardPFReq then some (issuePrefetch c s p wbMatch) else none
  | .downstream id pending =>
    (findMshr s id).map fun m =>
      { s with mshrs := setMshr s.mshrs { m with downstreamPending := pending } }
  | .memInvalidate => some { s with tags := { s.tags with blocks := fun _ => none } }

def Environment.quiet : Environment := ⟨Surroundings.silent, some [], false, none, false, false⟩

def State.init : State :=
  ⟨fun _ => Packet.plain .invalidCmd false, 0, ⟨fun _ => none, none⟩, [], 0, [], [], []⟩

end PnmCompaction.Cache
