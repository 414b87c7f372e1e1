import PnmCompaction.Cache.Mshr
import PnmCompaction.Cache.Block

/-!
# Tags, fills and accesses

The part of `BaseCache` and `Cache` that works on blocks: `access`
(base.cc 1316-1583, cache.cc 161-188), `handleFill`, `allocateBlock` and
`handleEvictions` (base.cc 1022-1057, 1597-1751). The replacement policy, the
write buffer and the write allocator answer through `Environment`; compression
and the packets that go to the write buffer are left out.
-/

namespace PnmCompaction.Cache

open PnmCompaction.Lib.Checked PnmCompaction.Lib.LittleEndian

structure Line where
  addr : ℕ
  isSecure : Bool
  deriving DecidableEq, Repr

def Packet.line (p : Packet) (blkSize : ℕ) : Line := ⟨p.getBlockAddr blkSize, p.isSecure⟩

def Mshr.line (m : Mshr) : Line := ⟨m.blkAddr, m.isSecure⟩

/-- The valid blocks of the tags, and the temporary block when it is in use. -/
structure Tags where
  blocks : Line → Option Blk
  temp : Option (Line × Blk)

/-- What a step learns from the parts around the cache: the blocks that
`findVictim` wants to evict (`none` without a victim), whether the write buffer
holds the line, the answer of the write allocator when there is one, and the
flags that the caches beside this one leave on a request it sends. -/
structure Environment extends Surroundings where
  victims : Option (List Line)
  wbMatch : Bool
  writeAllocate : Option Bool
  sentShared : Bool
  sentResponding : Bool

/-- `mshrQueue.findMatch`, queue.hh 168: uncacheable entries are ignored. -/
def findMatch (mshrs : List Mshr) (l : Line) : Option Mshr :=
  mshrs.find? fun m => !m.isUncacheable && m.line == l

variable (c : Params) (e : Environment) (mshrs : List Mshr) (h : Heap)

/-- Writing back what a block pointer refers to after it may have been changed
or invalidated; `temp` tells the temporary block from one of the tags. -/
def Tags.store (tags : Tags) (l : Line) (temp : Bool) (blk : Option Blk) : Tags :=
  match blk with
  | none => tags
  | some b =>
    let kept := if b.valid then some b else none
    if temp then { tags with temp := kept.map (l, ·) }
    else { tags with blocks := Function.update tags.blocks l kept }

/-- The checks of `evictBlock` (cache.cc 987-996) and `writebackBlk`. -/
def evictBlock (b : Blk) : Except Assertion PUnit :=
  if b.isDirty || c.writebackClean then
    ensure (c.isReadOnly = false ∨ c.writebackClean = true) .evictWriteback
  else pure ⟨⟩

/-- The first loop of `handleEvictions`: a victim with an MSHR stops it. -/
def evictionBlocked (tags : Tags) : List Line → Except Assertion Bool
  | [] => pure false
  | l :: ls =>
    match tags.blocks l, findMatch mshrs l with
    | some b, some m => do
      ensure ((b.isWritable = false ∧ m.targets.needsWritable = true) ∨
        m.targets.list.head?.any (fun t => (h t.pkt).cmd.isClean) = true) .evictBlocked
      pure true
    | _, _ => evictionBlocked tags ls

def evictAll (tags : Tags) : List Line → Except Assertion Tags
  | [] => pure tags
  | l :: ls =>
    match tags.blocks l with
    | none => evictAll tags ls
    | some b => do
      evictBlock c b
      evictAll { tags with blocks := Function.update tags.blocks l none } ls

def Blk.inserted : Blk := ⟨true, false, false, false, false, List.replicate c.blkSize 0⟩

/-- base.cc 1693-1751; `none` when no block could be allocated. -/
def allocateBlock (tags : Tags) (l : Line) : Except Assertion (Option Tags) :=
  match e.victims with
  | none => pure none
  | some vs => do
    if ← evictionBlocked mshrs h tags vs then pure none
    else
      let tags ← evictAll c tags vs
      pure (some (tags.store l false (some (Blk.inserted c))))

/-- The block that a fill goes to: the one found, a new one, or the temporary
block. The Boolean says that it is the temporary block. -/
def fillTarget (tags : Tags) (resp : Packet) (found : Option Blk) (allocate : Bool) :
    Except Assertion (Tags × Bool × Blk) :=
  match found with
  | some b => pure (tags, false, b)
  | none => do
    ensure (resp.cmd.hasData = true ∨ resp.cmd = .invalidateResp) .fillNoData
    let t ← (if allocate then allocateBlock c e mshrs h tags (resp.line c.blkSize)
      else pure none)
    match t with
    | some tags => pure (tags, false, Blk.inserted c)
    | none => do
      ensure (tags.temp = none) .tempBlockInUse
      pure (tags, true, Blk.inserted c)

def handleFill (tags : Tags) (resp : Packet) (found : Option Blk) (allocate : Bool) :
    Except Assertion (Tags × Bool × Blk) := do
  ensure (resp.cmd.isResponse = true) .respNotResponse
  ensure (resp.addr = resp.getBlockAddr c.blkSize) .fillAddress
  ensure (e.wbMatch = false) .fillAddress
  let r ← fillTarget c e mshrs h tags resp found allocate
  let b ← r.2.2.setReadable
  ensure (resp.cmd = .invalidateResp → resp.hasSharers = false) .fillInvalidateShared
  ensure (resp.hasSharers = true ∨ resp.cacheResponding = false ∨ c.isReadOnly = false)
    .fillReadOnlyDirty
  let b := if resp.hasSharers then b else
    { b with writable := true, dirty := b.dirty || resp.cacheResponding }
  if resp.cmd.isRead then
    ensure (resp.cmd.hasData = true) .fillNoData
    ensure (resp.size = c.blkSize) .fillSize
    let data ← resp.writeDataToBlock b.data c.blkSize
    pure (r.1, r.2.1, { b with data := data })
  else pure (r.1, r.2.1, b)

/-! ## Accesses -/

/-- Writing a whole line into the cache, base.cc 1441-1458 and 1520-1534. -/
def writeLine (tags : Tags) (p : Packet) (b : Blk) (dirty writable : Bool) :
    Except Assertion Tags := do
  ensure (p.cmd.needsResponse = false) .writebackNeedsResponse
  let data ← p.writeDataToBlock b.data c.blkSize
  pure (tags.store (p.line c.blkSize) false (some { b with
    dirty := b.dirty || dirty
    writable := b.writable || writable
    data := data }))

/-- A write of a whole line that may have to allocate first; `none` is "no
replaceable block". -/
def writeLineAllocating (tags : Tags) (p : Packet) (dirty writable : Bool) :
    Except Assertion (Option Tags) :=
  match tags.blocks (p.line c.blkSize) with
  | some b => do
    let t ← writeLine c tags p b dirty writable
    pure (some t)
  | none => do
    match ← allocateBlock c e mshrs h tags (p.line c.blkSize) with
    | none => pure none
    | some tags =>
      let b ← (Blk.inserted c).setReadable
      let t ← writeLine c tags p b dirty writable
      pure (some t)

/-- `BaseCache::access`: whether the access is satisfied, the packet and the
tags after it. -/
def baseAccess (tags : Tags) (p : Packet) : Except Assertion (Bool × Packet × Tags) := do
  ensure (p.isRequest = true) .accessOfResponse
  ensure (c.isReadOnly = false ∨ p.cmd.isWrite = false) .writeReadOnly
  if p.req.isCacheMaintenance then pure (false, p, tags)
  else if p.cmd.isEviction && e.wbMatch && p.cmd != .writebackDirty then pure (true, p, tags)
  else if p.cmd.isWriteback then
    ensure (p.size = c.blkSize) .writebackSize
    if p.cmd = .writebackClean ∧ (findMatch mshrs (p.line c.blkSize)).isSome = true then
      pure (true, p, tags)
    else
      let t ← writeLineAllocating c e mshrs h tags p (p.cmd == .writebackDirty) (!p.hasSharers)
      pure (t.isSome, p, t.getD tags)
  else if p.cmd = .cleanEvict then pure ((tags.blocks (p.line c.blkSize)).isSome, p, tags)
  else if p.cmd = .writeClean then
    ensure (p.size = c.blkSize) .writebackSize
    if p.writeThrough && (tags.blocks (p.line c.blkSize)).isNone then pure (false, p, tags)
    else
      let t ← writeLineAllocating c e mshrs h tags p (!p.writeThrough) false
      pure (t.isSome && !p.writeThrough, p, t.getD tags)
  else match tags.blocks (p.line c.blkSize) with
    | some b =>
      if (if p.cmd.needsWritable then b.isWritable else b.isReadable) = true then do
        let r ← satisfyRequest c e.toSurroundings p b false false
        pure (true, r.1, tags.store (p.line c.blkSize) false
          (maintainClusivity c r.1.cmd.fromCache (some r.2)))
      else pure (false, p, tags)
    -- a store conditional that misses completely has failed
    | none => pure (p.cmd.isLLSC && p.cmd.isWrite, p, tags)

/-- `Cache::access`: an uncacheable access flushes the line and misses. -/
def access (tags : Tags) (p : Packet) : Except Assertion (Bool × Packet × Tags) :=
  if p.req.isUncacheable then do
    ensure (p.isRequest = true) .accessOfResponse
    ensure (c.isReadOnly = false ∨ p.cmd.isWrite = false) .writeReadOnly
    let tags ← evictAll c tags [p.line c.blkSize]
    pure (false, p, tags)
  else baseAccess c e mshrs h tags p

/-- base.cc 460-481: the write half of a locked access makes the block
accessible again, or is demoted to a plain write when the block is not in the
tags. -/
def restoreLocked (tags : Tags) (p : Packet) : Except Assertion (Packet × Tags) :=
  if p.cmd = .lockedRMWWriteReq then
    match tags.blocks (p.line c.blkSize) with
    | some b => do
      ensure (b.isWritable = false ∧ b.isReadable = false) .lockedNotHidden
      let b ← b.setReadable
      let b ← b.setWritable
      pure (p, tags.store (p.line c.blkSize) false (some b))
    | none => pure ({ p with cmd := .writeReq }, tags)
  else pure (p, tags)

end PnmCompaction.Cache
