import Mathlib.Data.Multiset.AddSub
import PnmCompaction.Cache.MemCmd
import PnmCompaction.Lib.Checked

/-!
# The bridge and its two ports

`BridgeBase` of mem/bridge.cc (110-380): the CPU-side port queues responses and
counts the slots it has reserved for them, the memory-side port queues requests.
Both ports send the head of their `transmitList` from `trySendTiming`, which the
send event or the peer's retry calls. A send is two actions here, the call and
its return, so that the peers may call back into the bridge in between.

The assertions of these functions, of the event queue's `schedule`, of
`makeResponse` (mem/packet.hh 1062) and of the timing protocol
(mem/protocol/timing.cc) are kept. Ticks are left out: an event that is
scheduled may fire at any time. So is the panic on `cacheResponding`.
-/

namespace PnmCompaction.Bridge

open PnmCompaction.Cache (MemCmd)
open PnmCompaction.Lib.Checked

/-- A packet: the object that travels and comes back, and its current command. -/
structure Packet where
  id : ℕ
  cmd : MemCmd
  deriving DecidableEq

/-- What calls `trySendTiming` of a port next: nothing, the send event, the
return of the running call to the peer, or the retry of a peer that refused. -/
inductive Turn
  | idle | scheduled | calling | refused
  deriving DecidableEq

structure Port where
  transmitList : List Packet
  turn : Turn
  deriving DecidableEq

structure Limits where
  reqQueueLimit : ℕ
  respQueueLimit : ℕ
  req_pos : 0 < reqQueueLimit
  resp_pos : 0 < respQueueLimit

structure BridgeBase where
  cpuSidePort : Port
  memSidePort : Port
  outstandingResponses : ℕ
  retryReq : Bool
  deriving DecidableEq

inductive Fault
  | eventScheduled | transmitListEmpty | requestQueueFull
  | responseSlotsUsed | noOutstandingResponse
  | notRequest | notResponse | noResponseNeeded
  deriving DecidableEq

def schedule (p : Port) : Except Fault Port := do
  ensure (p.turn ≠ .scheduled) .eventScheduled
  pure { p with turn := .scheduled }

def reqQueueFull (c : Limits) (p : Port) : Prop := p.transmitList.length = c.reqQueueLimit

def respQueueFull (c : Limits) (b : BridgeBase) : Prop :=
  b.outstandingResponses = c.respQueueLimit

instance (c : Limits) (p : Port) : Decidable (reqQueueFull c p) :=
  inferInstanceAs (Decidable (_ = _))

instance (c : Limits) (b : BridgeBase) : Decidable (respQueueFull c b) :=
  inferInstanceAs (Decidable (_ = _))

def schedTimingReq (c : Limits) (p : Port) (pkt : Packet) : Except Fault Port := do
  let p ← if p.transmitList = [] then schedule p else pure p
  ensure (p.transmitList.length ≠ c.reqQueueLimit) .requestQueueFull
  pure { p with transmitList := p.transmitList ++ [pkt] }

def schedTimingResp (p : Port) (pkt : Packet) : Except Fault Port := do
  let p ← if p.transmitList = [] then schedule p else pure p
  pure { p with transmitList := p.transmitList ++ [pkt] }

def makeResponse (pkt : Packet) : Except Fault Packet := do
  ensure (pkt.cmd.needsResponse = true) .noResponseNeeded
  ensure (pkt.cmd.isRequest = true) .notRequest
  pure { pkt with cmd := pkt.cmd.responseCommand }

def Convertible (pkt : Packet) : Prop :=
  pkt.cmd.isRequest = true ∧ pkt.cmd.needsResponse = true

instance (pkt : Packet) : Decidable (Convertible pkt) :=
  inferInstanceAs (Decidable (_ ∧ _))

/-- `BridgeRequestPort::recvTimingResp`, which always accepts. -/
def recvTimingResp (b : BridgeBase) (pkt : Packet) : Except Fault BridgeBase :=
  if pkt.cmd.isResponse then do
    let p ← schedTimingResp b.cpuSidePort pkt
    pure { b with cpuSidePort := p }
  else if Convertible pkt then do
    let pkt ← makeResponse pkt
    let p ← schedTimingResp b.cpuSidePort pkt
    pure { b with cpuSidePort := p }
  else
    -- deleted on arrival
    pure b

/-- `BridgeResponsePort::recvTimingReq`; the flag is its answer to the sender. -/
def recvTimingReq (c : Limits) (b : BridgeBase) (pkt : Packet) :
    Except Fault (BridgeBase × Bool) :=
  if b.retryReq then
    pure (b, false)
  else if reqQueueFull c b.memSidePort then
    pure ({ b with retryReq := true }, false)
  else if pkt.cmd.needsResponse ∧ respQueueFull c b then
    pure ({ b with retryReq := true }, false)
  else do
    let slots ←
      if pkt.cmd.needsResponse then do
        ensure (b.outstandingResponses ≠ c.respQueueLimit) .responseSlotsUsed
        pure (b.outstandingResponses + 1)
      else
        pure b.outstandingResponses
    let p ← schedTimingReq c b.memSidePort pkt
    pure ({ b with outstandingResponses := slots, memSidePort := p }, true)

def scheduleNext (p : Port) : Except Fault Port :=
  if p.transmitList = [] then pure p else schedule p

/-- The send of a retry leaves the flag cleared; the peer's new attempt is an
action of its own. -/
def retryStalledReq (b : BridgeBase) : BridgeBase :=
  if b.retryReq then { b with retryReq := false } else b

/-- `BridgeRequestPort::trySendTiming` up to the call of `sendTimingReq`. -/
def reqTrySendTiming (b : BridgeBase) : Except Fault BridgeBase :=
  match b.memSidePort.transmitList with
  | [] => throw .transmitListEmpty
  | pkt :: rest => do
    ensure (pkt.cmd.isRequest = true) .notRequest
    pure { b with memSidePort := ⟨pkt :: rest, .calling⟩ }

/-- `BridgeRequestPort::trySendTiming` from the return of the call on. -/
def reqReturned (b : BridgeBase) (accepted : Bool) : Except Fault BridgeBase :=
  if accepted then do
    let p ← scheduleNext ⟨b.memSidePort.transmitList.tail, .idle⟩
    pure (retryStalledReq { b with memSidePort := p })
  else
    pure { b with memSidePort := { b.memSidePort with turn := .refused } }

/-- What `BridgeResponsePort::trySendTiming` does when the head leaves the
queue, after a successful send and in its discard branch alike. -/
def popResponse (c : Limits) (b : BridgeBase) : Except Fault BridgeBase := do
  let p : Port := ⟨b.cpuSidePort.transmitList.tail, .idle⟩
  ensure (b.outstandingResponses ≠ 0) .noOutstandingResponse
  let p ← scheduleNext p
  let b := { b with cpuSidePort := p, outstandingResponses := b.outstandingResponses - 1 }
  pure (if ¬ reqQueueFull c b.memSidePort then retryStalledReq b else b)

/-- `BridgeResponsePort::trySendTiming` up to the call of `sendTimingResp`; the
flag says that the head was discarded instead. -/
def respTrySendTiming (c : Limits) (b : BridgeBase) : Except Fault (BridgeBase × Bool) :=
  match b.cpuSidePort.transmitList with
  | [] => throw .transmitListEmpty
  | pkt :: rest =>
    if pkt.cmd.isResponse then
      pure ({ b with cpuSidePort := ⟨pkt :: rest, .calling⟩ }, false)
    else if Convertible pkt then do
      let pkt ← makeResponse pkt
      ensure (pkt.cmd.isResponse = true) .notResponse
      pure ({ b with cpuSidePort := ⟨pkt :: rest, .calling⟩ }, false)
    else do
      let b ← popResponse c b
      pure (b, true)

/-- `BridgeResponsePort::trySendTiming` from the return of the call on. -/
def respReturned (c : Limits) (b : BridgeBase) (accepted : Bool) : Except Fault BridgeBase :=
  if accepted then
    popResponse c b
  else
    pure { b with cpuSidePort := { b.cpuSidePort with turn := .refused } }

/-! ## The bridge among its peers -/

/-- The bridge, with what the peers and the history know: the forwarded packets
that expect a response and are not back, the accepted ones that expect a response
and have not been handed upstream, and the packets discarded unsent. -/
structure State where
  bridge : BridgeBase
  awaited : Multiset ℕ
  owed : Multiset ℕ
  discarded : ℕ
  deriving DecidableEq

inductive Action
  | request (pkt : Packet)
  | deliver (pkt : Packet)
  | sendReq
  | reqReturn (accepted : Bool)
  | sendResp
  | respReturn (accepted : Bool)
  deriving DecidableEq

def init : State := ⟨⟨⟨[], .idle⟩, ⟨[], .idle⟩, 0, false⟩, 0, 0, 0⟩

/-- What `recvTimingResp` queues: a response, or a request made into one. -/
def Answer (pkt : Packet) : Prop := pkt.cmd.isResponse = true ∨ Convertible pkt

instance (pkt : Packet) : Decidable (Answer pkt) := inferInstanceAs (Decidable (_ ∨ _))

def expecting (q : List Packet) : Multiset ℕ :=
  ((q.filter fun pkt => pkt.cmd.needsResponse).map Packet.id : List ℕ)

def ids (q : List Packet) : Multiset ℕ := (q.map Packet.id : List ℕ)

/-- `trySendTiming` is called by the send event and by the peer's retry. -/
def Due (p : Port) : Prop := p.turn = .scheduled ∨ p.turn = .refused

instance (p : Port) : Decidable (Due p) := inferInstanceAs (Decidable (_ ∨ _))

/-- One action; `none` when it is not enabled, an error when an assertion fails. -/
def step (c : Limits) (s : State) : Action → Option (Except Fault State)
  | .request pkt =>
    -- the sender's own protocol asserts that it sends a request
    if pkt.cmd.isRequest then
      some do
        let (b, accepted) ← recvTimingReq c s.bridge pkt
        pure { s with
          bridge := b
          owed := if accepted then expecting [pkt] + s.owed else s.owed }
    else none
  | .deliver pkt =>
    some do
      let b ← recvTimingResp s.bridge pkt
      pure { s with
        bridge := b
        awaited := if Answer pkt then s.awaited.erase pkt.id else s.awaited }
  | .sendReq =>
    if Due s.bridge.memSidePort then
      some do
        let b ← reqTrySendTiming s.bridge
        pure { s with bridge := b }
    else none
  | .reqReturn accepted =>
    if s.bridge.memSidePort.turn = .calling then
      some do
        let b ← reqReturned s.bridge accepted
        pure { s with
          bridge := b
          awaited :=
            if accepted then expecting (s.bridge.memSidePort.transmitList.take 1) + s.awaited
            else s.awaited }
    else none
  | .sendResp =>
    if Due s.bridge.cpuSidePort then
      some do
        let (b, discarded) ← respTrySendTiming c s.bridge
        pure { s with bridge := b, discarded := s.discarded + discarded.toNat }
    else none
  | .respReturn accepted =>
    if s.bridge.cpuSidePort.turn = .calling then
      some do
        let b ← respReturned c s.bridge accepted
        pure { s with
          bridge := b
          owed :=
            if accepted then s.owed - ids (s.bridge.cpuSidePort.transmitList.take 1)
            else s.owed }
    else none

def next (c : Limits) (s : State) (a : Action) : Option State :=
  match step c s a with
  | some (.ok t) => some t
  | _ => none

/-- The peer below hands back what it awaits an answer for, once, as a response or
still as a request; packets that are neither may come at any time. -/
def Legit (s : State) : Action → Prop
  | .deliver pkt => Answer pkt → pkt.id ∈ s.awaited
  | _ => True

instance (s : State) (a : Action) : Decidable (Legit s a) := by
  cases a <;> simp only [Legit] <;> infer_instance

theorem next_eq_some {c : Limits} {s t : State} {a : Action} :
    next c s a = some t ↔ step c s a = some (.ok t) := by
  unfold next
  rcases step c s a with _ | (f | u) <;> simp

end PnmCompaction.Bridge
