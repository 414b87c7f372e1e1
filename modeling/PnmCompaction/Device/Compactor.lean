import Mathlib.Data.Rat.Floor
import PnmCompaction.Lib.Exec
import PnmCompaction.Lib.LittleEndian

/-!
# The PNM compaction device (`gem5/src/dev/pnm/pnm_compactor.{hh,cc}`)

The MMIO registers, the completion event and the drain interface of
`PNMCompactor`. Registers and ticks are 64-bit, `STATUS` and `CMD` 32-bit.

The two places where the source computes with `double` are kept as parameters
with the laws the hardware gives: rounding is exact on the integers up to 2^53,
and a cast back to `uint64_t` is the integer part when that fits (it is
undefined otherwise, so nothing is said there).
-/

namespace PnmCompaction.Device

open PnmCompaction.Lib.Exec
open PnmCompaction.Lib.LittleEndian

structure Params where
  processLatency : ℕ
  /-- Ticks per byte. -/
  bandwidth : ℚ
  useDma : Bool
  toDouble : ℚ → ℚ
  toDouble_nat : ∀ n : ℕ, n ≤ 2 ^ 53 → toDouble n = n
  castU64 : ℚ → ℕ
  castU64_eq : ∀ x, 0 ≤ x → x < 2 ^ 64 → castU64 x = ⌊x⌋₊

/-- The default parameters (`PNMCompactor.py`: 25GiB/s, 500ns), with exact
arithmetic. 25GiB/s are 37.25 ticks per byte, which `MemoryBandwidth.getValue`
rounds to a whole number (param_types.py:806-813). -/
def Params.exact : Params where
  processLatency := 500000
  bandwidth := 37
  useDma := false
  toDouble := id
  toDouble_nat _ _ := rfl
  castU64 x := ⌊x⌋₊
  castU64_eq _ _ _ := rfl

/-! ### Register map (pnm_compactor.hh:64-80) -/

def offSrcBytes : ℕ := 0x00
def offDstBytes : ℕ := 0x08
def offCmd : ℕ := 0x10
def offStatus : ℕ := 0x14
def offBytesProc : ℕ := 0x18
def offJobsDone : ℕ := 0x20

def statusBusy : ℕ := 1
def statusDone : ℕ := 2
def statusError : ℕ := 4

def cmdSubmit : ℕ := 1
def cmdReset : ℕ := 2

def maxJobBytes : ℕ := 512 * 1024 * 1024

/-! ### State -/

inductive DrainState where
  | running | draining | drained | resuming
  deriving DecidableEq, Repr

structure Stats where
  bytesProcessed : ℚ
  jobsCompleted : ℚ
  deriving DecidableEq, Repr

structure Dev where
  srcBytesReg : ℕ
  dstBytesReg : ℕ
  statusReg : ℕ
  busy : Bool
  /-- The tick for which the completion event is scheduled. -/
  completeEvent : Option ℕ
  stats : Stats
  drainState : DrainState
  /-- The record last written at `dmaAddr`. -/
  dmaRecord : Option Bytes
  curTick : ℕ
  deriving DecidableEq, Repr

def Dev.init : Dev :=
  ⟨0, 0, 0, false, none, ⟨0, 0⟩, .running, none, 0⟩

/- What a step did, as seen from outside the device. `accepted` and `completed`
carry the byte total the source computes there. -/
inductive Note where
  | quiet
  | value (v : ℕ)
  | accepted (total : ℕ)
  | rejected
  | ignored
  | cancelled
  | completed (total : ℕ)
  deriving DecidableEq, Repr

/- The assertions of `EventQueue::schedule` (eventq.hh:759-760). The source
tests the tick first; here a double schedule is reported even when the tick is
wrong as well. -/
inductive Fault where
  | scheduledTwice
  | scheduledInPast
  deriving DecidableEq, Repr

inductive Width where
  | w1 | w2 | w4 | w8
  deriving DecidableEq, Repr

def Width.modulus : Width → ℕ
  | .w1 => 2 ^ 8
  | .w2 => 2 ^ 16
  | .w4 => 2 ^ 32
  | .w8 => 2 ^ 64

def pktGet (w : Width) (data : ℕ) : ℕ := data % w.modulus

def pktSet (w : Width) (val : ℕ) : ℕ := val % w.modulus

def schedule (d : Dev) (tick : ℕ) : Except Fault Dev :=
  if d.completeEvent.isSome then .error .scheduledTwice
  else if tick < d.curTick then .error .scheduledInPast
  else .ok { d with completeEvent := some tick }

/-! ### The device functions (pnm_compactor.cc:40-232) -/

def read (p : Params) (d : Dev) (off : ℕ) (w : Width) : ℕ :=
  if off = offStatus then pktSet w d.statusReg
  else if off = offBytesProc then pktSet w (p.castU64 d.stats.bytesProcessed)
  else if off = offJobsDone then pktSet w (p.castU64 d.stats.jobsCompleted)
  else pktSet w 0

-- `srcBytesReg + dstBytesReg` in `uint64_t`
def totalBytes (d : Dev) : ℕ := (d.srcBytesReg + d.dstBytesReg) % 2 ^ 64

def bwLatency (p : Params) (total : ℕ) : ℕ :=
  if 0 < p.bandwidth ∧ 0 < total then
    p.castU64 (p.toDouble (p.toDouble total * p.bandwidth))
  else 0

-- `bwLatency + processLatency` in `Tick`
def totalLatency (p : Params) (total : ℕ) : ℕ := (bwLatency p total + p.processLatency) % 2 ^ 64

/-- The `CMD_SUBMIT` arm of `write` (pnm_compactor.cc:134-166). -/
def submit (p : Params) (d : Dev) : Except Fault (Dev × Note) :=
  if d.busy then .ok (d, .ignored)
  else if maxJobBytes < d.srcBytesReg then .ok ({ d with statusReg := statusError }, .rejected)
  else
    match schedule { d with busy := true, statusReg := statusBusy }
        ((d.curTick + totalLatency p (totalBytes d)) % 2 ^ 64) with
    | .error e => .error e
    | .ok d' => .ok (d', .accepted (totalBytes d))

def reset (d : Dev) : Dev × Note :=
  ({ d with completeEvent := none, busy := false, statusReg := 0 },
    if d.completeEvent.isSome then .cancelled else .quiet)

def write (p : Params) (d : Dev) (off : ℕ) (w : Width) (data : ℕ) : Except Fault (Dev × Note) :=
  if off = offSrcBytes then .ok ({ d with srcBytesReg := pktGet w data }, .quiet)
  else if off = offDstBytes then .ok ({ d with dstBytesReg := pktGet w data }, .quiet)
  else if off = offCmd then
    let cmd := pktGet w data % 2 ^ 32
    if cmd = cmdSubmit then submit p d
    else if cmd = cmdReset then .ok (reset d)
    else .ok (d, .quiet)
  else .ok (d, .quiet)

-- `Drainable::signalDrainDone` (drain.hh:310-320), called only while draining
def signalDrainDone (d : Dev) : Dev :=
  match d.drainState with
  | .draining => { d with drainState := .drained }
  | _ => d

def dmaBytes (p : Params) (s : Stats) : Bytes :=
  leBytes 8 (p.castU64 s.bytesProcessed) ++ leBytes 4 (p.castU64 s.jobsCompleted) ++
    leBytes 4 0

def onComplete (p : Params) (d : Dev) : Dev × Note :=
  let total := totalBytes d
  let stats : Stats :=
    ⟨p.toDouble (d.stats.bytesProcessed + p.toDouble total), p.toDouble (d.stats.jobsCompleted + 1)⟩
  let d' := { d with
    stats := stats
    dmaRecord := if p.useDma then some (dmaBytes p stats) else d.dmaRecord
    statusReg := statusDone
    busy := false }
  (if d'.drainState = .draining then signalDrainDone d' else d', .completed total)

def drain (d : Dev) : DrainState :=
  if d.completeEvent.isSome then .draining else .drained

-- `Drainable::dmDrain` (drain.cc:207-216)
def dmDrain (d : Dev) : Dev := { d with drainState := drain d }

/-! ### Runs

Every access happens at a tick that is not before the last one and not after
the pending completion, which the event queue would have served first. -/

inductive Action where
  | mmioRead (tick off : ℕ) (w : Width)
  | mmioWrite (tick off : ℕ) (w : Width) (data : ℕ)
  | completion
  | drainRequest (tick : ℕ)
  | drainResume (tick : ℕ)
  | resetStats (tick : ℕ)
  deriving DecidableEq, Repr

def advance (d : Dev) (tick : ℕ) : Option Dev :=
  if d.curTick ≤ tick ∧ tick < 2 ^ 64 ∧ (∀ t ∈ d.completeEvent, tick ≤ t) then
    some { d with curTick := tick }
  else none

/-- `none`: the action cannot happen now. -/
def apply (p : Params) (d : Dev) : Action → Option (Except Fault (Dev × Note))
  | .mmioRead tick off w => (advance d tick).map fun d => .ok (d, .value (read p d off w))
  | .mmioWrite tick off w data => (advance d tick).map fun d => write p d off w data
  | .completion =>
    match d.completeEvent with
    | none => none
    | some tick => some (.ok (onComplete p { d with curTick := tick, completeEvent := none }))
  | .drainRequest tick => (advance d tick).map fun d => .ok (dmDrain d, .quiet)
  | .drainResume tick =>
    (advance d tick).map fun d => .ok ({ d with drainState := .running }, .quiet)
  | .resetStats tick => (advance d tick).map fun d => .ok ({ d with stats := ⟨0, 0⟩ }, .quiet)

end PnmCompaction.Device
