import PnmCompaction.Cache.Packet
import Mathlib.Data.List.Basic

/-!
# Blocks, hits and snoops

The coherence bits of a block (mem/cache/cache_blk.hh), `satisfyRequest`
(base.cc 1172-1266, cache.cc 78-153) and `handleSnoop` in timing mode
(cache.cc 1071-1284). Load locks, compression and the statistics are left out.
-/

namespace PnmCompaction.Cache

open PnmCompaction.Lib.Checked PnmCompaction.Lib.LittleEndian

structure Params where
  blkSize : ℕ
  isReadOnly : Bool
  writebackClean : Bool
  /-- `clusivity == mostly_excl` -/
  mostlyExcl : Bool
  forwardSnoops : Bool
  deriving DecidableEq, Repr

structure Blk where
  valid : Bool
  readable : Bool
  writable : Bool
  dirty : Bool
  prefetched : Bool
  data : Bytes
  deriving DecidableEq, Repr

namespace Blk

def isWritable (b : Blk) : Bool := b.valid && b.writable
def isReadable (b : Blk) : Bool := b.valid && b.readable
def isDirty (b : Blk) : Bool := b.valid && b.dirty

def invalidate (b : Blk) : Blk :=
  { b with valid := false, readable := false, writable := false, dirty := false,
           prefetched := false }

def setDirty (b : Blk) : Except Assertion Blk := do
  ensure (b.valid = true) .coherenceOfInvalid
  pure { b with dirty := true }

def setReadable (b : Blk) : Except Assertion Blk := do
  ensure (b.valid = true) .coherenceOfInvalid
  pure { b with readable := true }

def setWritable (b : Blk) : Except Assertion Blk := do
  ensure (b.valid = true) .coherenceOfInvalid
  pure { b with writable := true }

end Blk

def blkValid (blk : Option Blk) : Bool := blk.any Blk.valid

/-- What a snoop of the caches above leaves on the snoop packet. -/
structure Above where
  blockCached : Bool
  satisfied : Bool
  hasSharers : Bool
  cacheResponding : Bool
  deriving DecidableEq, Repr

/-- The answers of the parts around the modelled code during one step:
`checkWrite` of the load locks, the value a swap or an atomic operation leaves
in the block (`none` when the condition of the swap fails), and the caches
above. -/
structure Surroundings where
  checkWrite : Packet → Blk → Bool
  swap : Packet → Bytes → Option Bytes
  above : Packet → Above

variable (c : Params) (o : Surroundings)

def baseSatisfyRequest (p : Packet) (b : Blk) : Except Assertion (Packet × Blk) := do
  ensure (p.isRequest = true) .satisfyResponse
  ensure (b.valid = true) .satisfyInvalid
  ensure (p.getOffset c.blkSize + p.size ≤ c.blkSize) .satisfyRange
  if p.cmd = .swapReq then
    if p.req.isAtomic then
      let q ← p.setDataFromBlock b.data c.blkSize
      pure (q, { b with data := (o.swap p b.data).getD b.data, dirty := true })
    else
      ensure (p.size ≤ 8) .swapSize
      let q ← p.setDataFromBlock b.data c.blkSize
      match o.swap p b.data with
      | some new => pure (q, { b with data := new, dirty := true })
      | none => pure (q, b)
  else if p.cmd.isWrite then
    ensure (b.isWritable = true) .writeNotWritable
    let data ← (if o.checkWrite p b then p.writeDataToBlock b.data c.blkSize
      else pure b.data)
    -- a failed store conditional marks the line dirty too
    pure (p, { b with data := data, dirty := true })
  else if p.cmd.isRead then
    ensure (p.cmd.hasRespData = true) .readWithoutData
    let q ← p.setDataFromBlock b.data c.blkSize
    pure (q, b)
  else if p.cmd.isUpgrade then
    ensure (p.hasSharers = false) .upgradeShared
    if b.isDirty then
      let q ← p.setCacheResponding
      pure (q, { b with dirty := false })
    else pure (p, b)
  else if p.cmd.isClean then pure (p, { b with dirty := false })
  else
    ensure (p.cmd.isInvalidate = true) .notInvalidate
    pure (p, b.invalidate)

def satisfyCacheRead (p : Packet) (b : Blk) (deferredResponse pendingDowngrade : Bool) :
    Except Assertion (Packet × Blk) := do
  ensure (p.size = c.blkSize) .sizeNotBlock
  if ← p.needsWritable then
    ensure (p.cmd = .readExReq ∨ p.cmd = .scUpgradeFailReq) .writableReadCommand
    ensure (p.hasSharers = false) .writableReadShared
    if b.isDirty then
      let q ← p.setCacheResponding
      pure (q, { b with dirty := false })
    else pure (p, b)
  else if b.isWritable && !pendingDowngrade && !p.hasSharers && p.cmd != .readCleanReq then
    if b.isDirty then
      if deferredResponse then pure ({ p with hasSharers := true }, b)
      else
        let q ← p.setCacheResponding
        pure (q, { b with dirty := false })
    else pure (p, b)
  else pure ({ p with hasSharers := true }, b)

def satisfyRequest (p : Packet) (b : Blk) (deferredResponse pendingDowngrade : Bool) :
    Except Assertion (Packet × Blk) := do
  let r ← baseSatisfyRequest c o p b
  if r.1.cmd.isRead && r.1.cmd.fromCache then
    satisfyCacheRead c r.1 r.2 deferredResponse pendingDowngrade
  else pure r

def maintainClusivity (fromCache : Bool) (blk : Option Blk) : Option Blk :=
  if fromCache && blkValid blk && !(blk.any Blk.isDirty) && c.mostlyExcl then
    blk.map Blk.invalidate
  else blk

/-! ## Snoops -/

/-- What `handleSnoop` leaves: the packet, the block, whether it supplied a
response on the memory side and whether it deleted a deferred packet. -/
structure SnoopEnd where
  pkt : Packet
  blk : Option Blk
  responded : Bool
  deleted : Bool

def snoopAbove (p : Packet) : Except Assertion Packet :=
  if c.forwardSnoops then do
    let a := o.above p
    let p := { p with blockCached := p.blockCached || a.blockCached }
    let p ← (if a.satisfied then p.setSatisfied else pure p)
    p.copyResponderFlags { p with hasSharers := a.hasSharers, cacheResponding := a.cacheResponding }
  else pure p

def doTimingSupplyResponse (p : Packet) (b : Blk) (pendingInval : Bool) :
    Except Assertion Packet := do
  ensure (p.isRequest = true) .snoopOfResponse
  ensure (p.cmd.needsResponse = true) .snoopNoResponse
  ensure (p.req.isUncacheable = true ∨ p.cmd.isInvalidate = true ∨ p.hasSharers = true)
    .supplyNotShared
  let q ← p.makeResponse
  let q ← (if q.cmd.isRead then q.setDataFromBlock b.data c.blkSize else pure q)
  if q.cmd = .readResp ∧ pendingInval = true then
    pure { q with cmd := .readRespWithInvalidate }
  else pure q

/-- A snoop that finds the block valid and is no clean operation, cache.cc
1182-1281; `respond` was decided before the line gave up its state. -/
def snoopHit (p : Packet) (b : Blk) (isDeferred pendingInval : Bool) :
    Except Assertion SnoopEnd := do
  let respond := b.isDirty && p.cmd.needsResponse
  ensure (c.isReadOnly = false ∨ b.isDirty = false) .readOnlyDirty
  if p.cmd.mustCheckAbove then
    pure ⟨{ p with blockCached := true }, some b, false, false⟩
  else
    let shares := p.cmd.isRead && !p.cmd.isInvalidate
    ensure (shares = true → p.cmd.needsWritable = false) .snoopNeedsWritable
    let p := if shares then { p with hasSharers := true } else p
    let b := if shares && !p.req.isUncacheable then { b with writable := false } else b
    let left := if p.cmd.isInvalidate then b.invalidate else b
    if respond then
      let q ← p.setCacheResponding
      let q ← (if b.isWritable then q.setResponderHadWritable else pure q)
      ensure (q.cmd.isInvalidate = true ∨ q.hasSharers = true) .modifiedKept
      let r ← doTimingSupplyResponse c q b pendingInval
      -- a fresh snoop is answered with a copy, a deferred one with the packet itself
      pure ⟨if isDeferred then r else q, some left, true, false⟩
    else
      ensure (isDeferred = true → p.cmd.needsResponse = true) .snoopNoResponse
      pure ⟨p, some left, false, isDeferred⟩

def handleSnoop (p : Packet) (blk : Option Blk) (isDeferred pendingInval : Bool) :
    Except Assertion SnoopEnd := do
  ensure (p.isRequest = true) .snoopOfResponse
  ensure (p.cmd.isInvalidate = false ∨ p.req.isUncacheable = false) .snoopUncacheableInvalidate
  let p ← snoopAbove c o p
  if p.cmd.isClean then
    let cleans := blk.any Blk.isDirty
    let p ← (if cleans then p.setSatisfied else pure p)
    let blk := if cleans then blk.map fun b => { b with writable := false, dirty := false }
      else blk
    ensure (isDeferred = true → p.cmd.needsResponse = true) .snoopNoResponse
    pure ⟨p, if p.cmd.isInvalidate && blkValid blk then blk.map Blk.invalidate else blk,
      false, isDeferred⟩
  else match blk with
    | some b =>
      if b.valid then snoopHit c p b isDeferred pendingInval
      else snoopMiss p (some b)
    | none => snoopMiss p none
where
  /-- The block is gone: a cache above responds, a deferred packet is deleted. -/
  snoopMiss (p : Packet) (blk : Option Blk) : Except Assertion SnoopEnd := do
    ensure (isDeferred = true → p.cmd.needsResponse = true) .snoopNoResponse
    ensure (isDeferred = true → p.cacheResponding = true) .snoopNoResponder
    pure ⟨p, blk, false, isDeferred⟩

/-! ## What is left of the packet and of the block -/

variable {c o}

/-- `satisfyRequest` is for requests and valid blocks, keeps the header of the
packet, and drops the block for an `InvalidateReq` only. -/
structure Satisfied (p : Packet) (b : Blk) (q : Packet) (b' : Blk) : Prop where
  isRequest : p.isRequest = true
  valid : b.valid = true
  header : Packet.SameHeader p q
  valid' : b'.valid = decide (p.cmd ≠ .invalidateReq)

theorem invalidateReq_of_rest {cmd : MemCmd} (hr : cmd.isRequest = true)
    (hi : cmd.isInvalidate = true) (hw : ¬cmd.isWrite = true) (hrd : ¬cmd.isRead = true)
    (hu : ¬cmd.isUpgrade = true) (hc : ¬cmd.isClean = true) : cmd = .invalidateReq := by
  revert hr hi hw hrd hu hc
  cases cmd <;> decide

theorem baseSatisfyRequest_spec {p q : Packet} {b b' : Blk}
    (h : baseSatisfyRequest c o p b = .ok (q, b')) : Satisfied p b q b' := by
  simp only [baseSatisfyRequest, bind_ok_iff, ensure_ok_iff, exists_const] at h
  obtain ⟨hr, hv, _, h⟩ := h
  have header {x : Bytes} {q : Packet} (hs : p.setDataFromBlock x c.blkSize = .ok q) :
      Packet.SameHeader p q := Packet.setData_spec hs
  have keeps {q : Packet} {b' : Blk} (hq : Packet.SameHeader p q) (hb : b'.valid = b.valid)
      (hc : p.cmd ≠ .invalidateReq) : Satisfied p b q b' :=
    ⟨hr, hv, hq, by rw [hb, hv]; exact (decide_eq_true hc).symm⟩
  split at h
  · next hcmd =>
    have hne : p.cmd ≠ .invalidateReq := by rw [hcmd]; decide
    split at h
    · simp only [bind_ok_iff, pure_ok_iff, Prod.mk.injEq] at h
      obtain ⟨q', hq, rfl, rfl⟩ := h
      exact keeps (header hq) rfl hne
    · simp only [bind_ok_iff, ensure_ok_iff, exists_const] at h
      obtain ⟨_, q', hq, h⟩ := h
      split at h <;> cases h <;> exact keeps (header hq) rfl hne
  · split at h
    · next hw =>
      simp only [bind_ok_iff, ensure_ok_iff, exists_const, pure_ok_iff, Prod.mk.injEq] at h
      obtain ⟨_, d, _, rfl, rfl⟩ := h
      exact keeps (Packet.SameHeader.refl p) rfl (by rintro hc; rw [hc] at hw; cases hw)
    · split at h
      · next hrd =>
        simp only [bind_ok_iff, ensure_ok_iff, exists_const, pure_ok_iff, Prod.mk.injEq] at h
        obtain ⟨_, q', hq, rfl, rfl⟩ := h
        exact keeps (header hq) rfl (by rintro hc; rw [hc] at hrd; cases hrd)
      · split at h
        · next hu =>
          have hne : p.cmd ≠ .invalidateReq := by rintro hc; rw [hc] at hu; cases hu
          simp only [bind_ok_iff, ensure_ok_iff, exists_const] at h
          obtain ⟨_, h⟩ := h
          split at h
          · simp only [bind_ok_iff, pure_ok_iff, Prod.mk.injEq] at h
            obtain ⟨q', hq, rfl, rfl⟩ := h
            exact keeps (Packet.setCacheResponding_spec hq) rfl hne
          · cases h
            exact keeps (Packet.SameHeader.refl p) rfl hne
        · split at h
          · next hc =>
            cases h
            exact keeps (Packet.SameHeader.refl p) rfl (by rintro he; rw [he] at hc; cases hc)
          · next hw hrd hu hc =>
            simp only [bind_ok_iff, ensure_ok_iff, exists_const, pure_ok_iff, Prod.mk.injEq] at h
            obtain ⟨hi, rfl, rfl⟩ := h
            have he := invalidateReq_of_rest hr hi hw hrd hu hc
            exact ⟨hr, hv, Packet.SameHeader.refl p, by rw [he]; rfl⟩

theorem satisfyCacheRead_spec {p q : Packet} {b b' : Blk} {d pd : Bool}
    (h : satisfyCacheRead c p b d pd = .ok (q, b')) :
    Packet.SameHeader p q ∧ b'.valid = b.valid := by
  have shared : Packet.SameHeader p { p with hasSharers := true } := ⟨rfl, rfl, rfl, rfl, rfl⟩
  simp only [satisfyCacheRead, bind_ok_iff, ensure_ok_iff, exists_const] at h
  obtain ⟨_, w, _, h⟩ := h
  cases w with
  | true =>
    simp only [if_true, bind_ok_iff, ensure_ok_iff, exists_const] at h
    obtain ⟨_, _, h⟩ := h
    split at h
    · simp only [bind_ok_iff, pure_ok_iff, Prod.mk.injEq] at h
      obtain ⟨q', hq, rfl, rfl⟩ := h
      exact ⟨Packet.setCacheResponding_spec hq, rfl⟩
    · cases h
      exact ⟨Packet.SameHeader.refl p, rfl⟩
  | false =>
    simp only [Bool.false_eq_true, if_false] at h
    split at h
    · split at h
      · split at h
        · cases h
          exact ⟨shared, rfl⟩
        · simp only [bind_ok_iff, pure_ok_iff, Prod.mk.injEq] at h
          obtain ⟨q', hq, rfl, rfl⟩ := h
          exact ⟨Packet.setCacheResponding_spec hq, rfl⟩
      · cases h
        exact ⟨Packet.SameHeader.refl p, rfl⟩
    · cases h
      exact ⟨shared, rfl⟩

theorem satisfyRequest_spec {p q : Packet} {b b' : Blk} {d pd : Bool}
    (h : satisfyRequest c o p b d pd = .ok (q, b')) : Satisfied p b q b' := by
  simp only [satisfyRequest, bind_ok_iff] at h
  obtain ⟨⟨q₁, b₁⟩, h₁, h⟩ := h
  have hs := baseSatisfyRequest_spec h₁
  split at h
  · obtain ⟨hh, hb⟩ := satisfyCacheRead_spec h
    exact ⟨hs.isRequest, hs.valid, hs.header.trans hh, hb.trans hs.valid'⟩
  · cases h
    exact hs

theorem snoopAbove_spec {p q : Packet} (h : snoopAbove c o p = .ok q) :
    Packet.SameHeader p q := by
  unfold snoopAbove at h
  split at h
  · simp only [bind_ok_iff] at h
    obtain ⟨q₁, h₁, h₂⟩ := h
    have a : Packet.SameHeader p { p with
        blockCached := p.blockCached || (o.above p).blockCached } := ⟨rfl, rfl, rfl, rfl, rfl⟩
    have b := Packet.copyResponderFlags_spec h₂
    split at h₁
    · exact a.trans ((Packet.setSatisfied_spec h₁).trans b)
    · cases h₁
      exact a.trans b
  · cases h
    exact Packet.SameHeader.refl p

theorem snoopHit_valid {p : Packet} {b : Blk} {d pi : Bool} {r : SnoopEnd} (hv : b.valid = true)
    (h : snoopHit c p b d pi = .ok r) : blkValid r.blk = !p.cmd.isInvalidate := by
  simp only [snoopHit, bind_ok_iff, ensure_ok_iff, exists_const] at h
  obtain ⟨_, h⟩ := h
  split at h
  · next hm =>
    cases h
    -- neither a hardware prefetch nor an eviction invalidates
    have hi : p.cmd.isInvalidate = false := by
      revert hm
      cases p.cmd <;> decide
    simp [blkValid, hv, hi]
  · simp only [bind_ok_iff, ensure_ok_iff, exists_const] at h
    obtain ⟨_, h⟩ := h
    have hcmd : ∀ x : Bool,
        (if x = true then { p with hasSharers := true } else p).cmd = p.cmd := by
      intro x
      split <;> rfl
    have hval : ∀ (x : Bool) (b' : Blk), b'.valid = true →
        blkValid (some (if (if x = true then { p with hasSharers := true } else p).cmd.isInvalidate
          = true then b'.invalidate else b')) = !p.cmd.isInvalidate := by
      intro x b' hb
      rw [hcmd]
      cases p.cmd.isInvalidate <;> simp [blkValid, Blk.invalidate, hb]
    have hb : ∀ x : Bool, (if x = true then { b with writable := false } else b).valid = true := by
      intro x
      split <;> exact hv
    split at h
    · simp only [bind_ok_iff, ensure_ok_iff, exists_const, pure_ok_iff] at h
      obtain ⟨_, _, _, _, _, _, _, rfl⟩ := h
      exact hval _ _ (hb _)
    · simp only [bind_ok_iff, ensure_ok_iff, exists_const, pure_ok_iff] at h
      obtain ⟨_, rfl⟩ := h
      exact hval _ _ (hb _)

/-- A snoop takes the block away exactly if it invalidates. -/
theorem handleSnoop_valid {p : Packet} {blk : Option Blk} {d pi : Bool} {r : SnoopEnd}
    (h : handleSnoop c o p blk d pi = .ok r) :
    blkValid r.blk = (blkValid blk && !p.cmd.isInvalidate) := by
  simp only [handleSnoop, bind_ok_iff, ensure_ok_iff, exists_const] at h
  obtain ⟨_, _, q, hq, h⟩ := h
  have hcmd := (snoopAbove_spec hq).cmd
  rw [← hcmd]
  split at h
  · simp only [bind_ok_iff, ensure_ok_iff, exists_const, pure_ok_iff] at h
    obtain ⟨q', hq', _, rfl⟩ := h
    have hc' : q'.cmd = q.cmd := by
      split at hq'
      · exact (Packet.setSatisfied_spec hq').cmd
      · cases hq'
        rfl
    rw [hc']
    rcases blk with _ | b
    · cases q.cmd.isInvalidate <;> rfl
    · cases hi : q.cmd.isInvalidate <;> cases hb : b.valid <;> cases hd : b.dirty <;>
        simp [blkValid, Blk.isDirty, Blk.invalidate, hb, hd]
  · rcases blk with _ | b
    · simp only [handleSnoop.snoopMiss, bind_ok_iff, ensure_ok_iff, exists_const, pure_ok_iff] at h
      obtain ⟨_, _, rfl⟩ := h
      rfl
    · simp only at h
      split at h
      · next hv =>
        rw [snoopHit_valid hv h]
        simp [blkValid, hv]
      · next hv =>
        simp only [handleSnoop.snoopMiss, bind_ok_iff, ensure_ok_iff, exists_const,
          pure_ok_iff] at h
        obtain ⟨_, _, rfl⟩ := h
        simp [blkValid, Bool.eq_false_iff.mpr hv]

end PnmCompaction.Cache
