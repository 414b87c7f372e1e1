import PnmCompaction.Cache.MemCmd
import PnmCompaction.Lib.Checked
import PnmCompaction.Lib.LittleEndian

/-!
# Packets

`Packet` of mem/packet.hh and `Request` of mem/request.hh as the cache uses
them. A packet is an object that the cache, the MSHRs and the CPU share by
pointer and change in place, so packets live in a heap and every list holds
their identities. Ticks, print labels and the ownership flags of the data
pointer are left out; `data` is the content of the buffer.
-/

namespace PnmCompaction.Cache

open PnmCompaction.Lib.Checked PnmCompaction.Lib.LittleEndian

abbrev PacketId := ℕ

/-- The assertions (and `panic_if`s) of the modelled code. -/
inductive Assertion
  -- packet.hh, packet.cc
  | needsWritableOfResponse | cacheRespondingOfResponse | cacheRespondingTwice
  | hadWritableWithoutResponder | hadWritableTwice | satisfiedNotClean | satisfiedTwice
  | responseNotNeeded | responseOfResponse | copyErrorFromNonError
  | copyFlagsToResponse | twoResponders | maskedData | byteEnableSize
  -- cache_blk.hh
  | coherenceOfInvalid
  -- mshr.cc, mshr.hh, mshr_queue.cc
  | noTargets | notInService | alreadyInService | hardPrefetchTarget | snoopWritableMismatch
  | extractSource | deferredSource | downstreamStillPending | writableAlready
  | notLockedTarget | targetsLeft | deferredNotReset
  -- satisfyRequest
  | satisfyResponse | satisfyInvalid | satisfyRange | swapSize | writeNotWritable
  | readWithoutData | upgradeShared | notInvalidate | sizeNotBlock
  | writableReadCommand | writableReadShared
  -- serviceMSHRTargets
  | lockedWriteFirst | prefetchNoBlock | prefetchReadOnly | writeLineError
  | writeLineNoBlock | writeLineNotWritable | upgradeFailTarget | targetHasRespData
  | notHardPrefetch | snoopWithError | snoopWithInvalidate
  -- handleSnoop
  | snoopOfResponse | snoopUncacheableInvalidate | snoopNoResponse | snoopNoResponder
  | readOnlyDirty | snoopNeedsWritable | supplyNotShared | modifiedKept
  -- access, requests, fills
  | accessOfResponse | writeReadOnly | writebackSize | writebackNeedsResponse
  | responderNotOwned | lockedNotHidden | uncacheableHit | lockedReadMSHR | lockedNoBlock
  | lockedWriteRead | lockedWriteNoMSHR | lockedWriteMiss | uncacheableBlock
  | uncacheableCommand | prefetchNoResponse | writebackCoalesced
  | missWritable
  | respNotResponse | wholeLineNotInvalidate | fillAddress
  | fillNoData | fillSize | fillInvalidateShared | fillReadOnlyDirty | tempBlockInUse
  | evictBlocked | evictWriteback
  -- sendMSHRQueuePacket, createMissPacket
  | missEviction | missNoResponse | wholeLineCommand | wholeLineWritable | upgradeNotNeeded
  | upgradeWritable | forwardWrite | prefetchBlockPresent
  deriving DecidableEq, Repr

/-- What the cache reads of a `Request`: the flags UNCACHEABLE, CLEAN and
INVALIDATE, whether one of the other flags that keep writes from merging
(mshr.cc 137-140) is set, whether it is an atomic operation, and the byte
enables. -/
structure Request where
  isUncacheable : Bool
  isCacheClean : Bool
  isCacheInvalidate : Bool
  noMerge : Bool
  isAtomic : Bool
  byteEnable : List Bool
  deriving DecidableEq, Repr

namespace Request

def isCacheMaintenance (r : Request) : Bool := r.isCacheClean || r.isCacheInvalidate

def isMasked (r : Request) : Bool := r.byteEnable.contains false

end Request

structure Packet where
  cmd : MemCmd
  req : Request
  addr : ℕ
  size : ℕ
  isSecure : Bool
  hasSharers : Bool
  expressSnoop : Bool
  responderHadWritable : Bool
  cacheResponding : Bool
  writeThrough : Bool
  satisfied : Bool
  blockCached : Bool
  data : Bytes
  deriving DecidableEq, Repr

abbrev Heap := PacketId → Packet

def memcpy (dst src : Bytes) (n : ℕ) : Bytes := src.take n ++ dst.drop n

namespace Packet

def isRequest (p : Packet) : Bool := p.cmd.isRequest

def isMaskedWrite (p : Packet) : Bool := p.cmd == .writeReq && p.req.isMasked

/-- `getOffset` and `getBlockAddr`; the block size is a power of two, so the
masks are remainder and difference. -/
def getOffset (p : Packet) (blkSize : ℕ) : ℕ := p.addr % blkSize
def getBlockAddr (p : Packet) (blkSize : ℕ) : ℕ := p.addr - p.addr % blkSize

/-- `needsWritable()`, which asserts that the packet is a request. -/
def needsWritable (p : Packet) : Except Assertion Bool := do
  ensure (p.isRequest = true) .needsWritableOfResponse
  pure p.cmd.needsWritable

def setCacheResponding (p : Packet) : Except Assertion Packet := do
  ensure (p.isRequest = true) .cacheRespondingOfResponse
  ensure (p.cacheResponding = false) .cacheRespondingTwice
  pure { p with cacheResponding := true }

def setResponderHadWritable (p : Packet) : Except Assertion Packet := do
  ensure (p.cacheResponding = true) .hadWritableWithoutResponder
  ensure (p.responderHadWritable = false) .hadWritableTwice
  pure { p with responderHadWritable := true }

def setSatisfied (p : Packet) : Except Assertion Packet := do
  ensure (p.cmd.isClean = true) .satisfiedNotClean
  ensure (p.satisfied = false) .satisfiedTwice
  pure { p with satisfied := true }

def copyResponderFlags (p from_ : Packet) : Except Assertion Packet := do
  ensure (p.isRequest = true) .copyFlagsToResponse
  ensure (from_.cacheResponding = false ∨ p.cacheResponding = false) .twoResponders
  pure { p with
    hasSharers := p.hasSharers || from_.hasSharers
    cacheResponding := p.cacheResponding || from_.cacheResponding }

def makeResponse (p : Packet) : Except Assertion Packet := do
  ensure (p.cmd.needsResponse = true) .responseNotNeeded
  ensure (p.isRequest = true) .responseOfResponse
  pure { p with cmd := p.cmd.responseCommand, expressSnoop := false }

def copyError (p from_ : Packet) : Except Assertion Packet := do
  ensure (from_.cmd.isError = true) .copyErrorFromNonError
  pure { p with cmd := from_.cmd }

def setData (p : Packet) (src : Bytes) : Except Assertion Packet := do
  ensure (p.isMaskedWrite = false) .maskedData
  pure { p with data := memcpy p.data src p.size }

def setDataFromBlock (p : Packet) (blkData : Bytes) (blkSize : ℕ) : Except Assertion Packet :=
  p.setData (blkData.drop (p.getOffset blkSize))

def writeData (p : Packet) (dst : Bytes) : Except Assertion Bytes :=
  if p.isMaskedWrite then do
    ensure (p.req.byteEnable.length = p.size) .byteEnableSize
    pure ((p.req.byteEnable.zip (p.data.zip dst)).map (fun b => if b.1 then b.2.1 else b.2.2)
      ++ dst.drop p.size)
  else pure (memcpy dst p.data p.size)

def writeDataToBlock (p : Packet) (blkData : Bytes) (blkSize : ℕ) : Except Assertion Bytes := do
  let written ← p.writeData (blkData.drop (p.getOffset blkSize))
  pure (blkData.take (p.getOffset blkSize) ++ written)

/-! ## What the operations leave of a packet -/

/-- `q` is `p` up to its flags and its data. -/
structure SameHeader (p q : Packet) : Prop where
  cmd : q.cmd = p.cmd
  req : q.req = p.req
  addr : q.addr = p.addr
  size : q.size = p.size
  isSecure : q.isSecure = p.isSecure

theorem SameHeader.refl (p : Packet) : SameHeader p p := ⟨rfl, rfl, rfl, rfl, rfl⟩

theorem SameHeader.trans {p q r : Packet} (h : SameHeader p q) (h' : SameHeader q r) :
    SameHeader p r :=
  ⟨h'.cmd.trans h.cmd, h'.req.trans h.req, h'.addr.trans h.addr, h'.size.trans h.size,
    h'.isSecure.trans h.isSecure⟩

theorem setCacheResponding_spec {p q : Packet} (h : p.setCacheResponding = .ok q) :
    SameHeader p q := by
  simp only [setCacheResponding, bind_ok_iff, ensure_ok_iff, exists_const, pure_ok_iff] at h
  obtain ⟨_, _, rfl⟩ := h
  exact ⟨rfl, rfl, rfl, rfl, rfl⟩

theorem setSatisfied_spec {p q : Packet} (h : p.setSatisfied = .ok q) : SameHeader p q := by
  simp only [setSatisfied, bind_ok_iff, ensure_ok_iff, exists_const, pure_ok_iff] at h
  obtain ⟨_, _, rfl⟩ := h
  exact ⟨rfl, rfl, rfl, rfl, rfl⟩

theorem copyResponderFlags_spec {p from_ q : Packet} (h : p.copyResponderFlags from_ = .ok q) :
    SameHeader p q := by
  simp only [copyResponderFlags, bind_ok_iff, ensure_ok_iff, exists_const, pure_ok_iff] at h
  obtain ⟨_, _, rfl⟩ := h
  exact ⟨rfl, rfl, rfl, rfl, rfl⟩

theorem setData_spec {p q : Packet} {src : Bytes} (h : p.setData src = .ok q) :
    SameHeader p q := by
  simp only [setData, bind_ok_iff, ensure_ok_iff, exists_const, pure_ok_iff] at h
  obtain ⟨_, rfl⟩ := h
  exact ⟨rfl, rfl, rfl, rfl, rfl⟩

end Packet

end PnmCompaction.Cache
