import Mathlib.Algebra.Order.Group.Multiset
import Mathlib.Tactic.Abel
import PnmCompaction.Bridge.Ports
import PnmCompaction.Lib.Exec

/-!
# The response slots of the bridge

`outstandingResponses` is reserved in `recvTimingReq` and released in
`trySendTiming` of the response port, on the far side of two queues and of the
peer below. The invariant says where each reserved slot is: its packet waits in
the request queue, is awaited from below, or waits in the response queue.
-/

namespace PnmCompaction.Bridge

open PnmCompaction.Cache (MemCmd)
open PnmCompaction.Lib.Checked PnmCompaction.Lib.Exec

variable {c : Limits} {b : BridgeBase} {p : Port} {s : State} {pkt : Packet}

/-! ## One port -/

/-- Some call of `trySendTiming` is to come exactly while a packet is queued. -/
def Port.Ready (p : Port) : Prop := p.transmitList = [] ↔ p.turn = .idle

def Port.pushed (p : Port) (pkt : Packet) : Port :=
  ⟨p.transmitList ++ [pkt], if p.transmitList = [] then .scheduled else p.turn⟩

def Port.popped (p : Port) : Port :=
  ⟨p.transmitList.tail, if p.transmitList.tail = [] then .idle else .scheduled⟩

theorem Port.Ready.pushed (h : p.Ready) : (p.pushed pkt).Ready := by
  unfold Port.Ready Port.pushed
  by_cases he : p.transmitList = []
  · simp [he]
  · have hturn : p.turn ≠ .idle := fun hi => he (h.mpr hi)
    simp [he, hturn]

theorem Port.popped_ready : p.popped.Ready := by
  unfold Port.Ready Port.popped
  by_cases he : p.transmitList.tail = [] <;> simp [he]

theorem Port.Ready.ne_nil (h : p.Ready) (hturn : p.turn ≠ .idle) : p.transmitList ≠ [] :=
  fun he => hturn (h.mp he)

theorem Port.Ready.turned (h : p.Ready) (hturn : p.turn ≠ .idle) {u : Turn} (hu : u ≠ .idle) :
    (⟨p.transmitList, u⟩ : Port).Ready :=
  ⟨fun he => absurd he (h.ne_nil hturn), fun hi => absurd hi hu⟩

theorem Due.ne_idle (h : Due p) : p.turn ≠ .idle := by
  rcases h with h | h <;> simp [h]

theorem schedule_eq (h : p.turn ≠ .scheduled) :
    schedule p = .ok { p with turn := .scheduled } := by
  simp [schedule, ensure, h]

theorem schedTimingResp_eq (h : p.Ready) : schedTimingResp p pkt = .ok (p.pushed pkt) := by
  unfold schedTimingResp Port.pushed
  by_cases he : p.transmitList = []
  · have hturn : p.turn ≠ .scheduled := by simp [h.mp he]
    rw [if_pos he, if_pos he, schedule_eq hturn]
    rfl
  · rw [if_neg he, if_neg he]
    rfl

theorem schedTimingReq_eq (h : p.Ready) (hroom : ¬ reqQueueFull c p) :
    schedTimingReq c p pkt = .ok (p.pushed pkt) := by
  unfold schedTimingReq Port.pushed
  by_cases he : p.transmitList = []
  · have hturn : p.turn ≠ .scheduled := by simp [h.mp he]
    rw [if_pos he, if_pos he, schedule_eq hturn]
    exact bind_ok_iff.mpr ⟨_, rfl, bind_ok_iff.mpr ⟨⟨⟩, ensure_ok_iff.mpr hroom, rfl⟩⟩
  · rw [if_neg he, if_neg he]
    exact bind_ok_iff.mpr ⟨p, rfl, bind_ok_iff.mpr ⟨⟨⟩, ensure_ok_iff.mpr hroom, rfl⟩⟩

theorem scheduleNext_eq : scheduleNext ⟨p.transmitList.tail, .idle⟩ = .ok p.popped := by
  unfold scheduleNext Port.popped
  by_cases he : p.transmitList.tail = []
  · rw [if_pos he, if_pos he]
    rfl
  · rw [if_neg he, if_neg he]
    exact schedule_eq (by simp)

/-! ## What the functions of the bridge do -/

theorem isResponse_responseCommand {cmd : MemCmd} (hreq : cmd.isRequest = true)
    (hneeds : cmd.needsResponse = true) : cmd.responseCommand.isResponse = true := by
  revert hreq hneeds
  cases cmd <;> decide

def answer (pkt : Packet) : Packet :=
  if pkt.cmd.isResponse then pkt else { pkt with cmd := pkt.cmd.responseCommand }

theorem answer_id : (answer pkt).id = pkt.id := by
  unfold answer
  split <;> rfl

theorem Answer.isResponse (h : Answer pkt) : (answer pkt).cmd.isResponse = true := by
  unfold answer
  split
  next hr => exact hr
  next hr =>
    rcases h with h | ⟨hreq, hneeds⟩
    · exact absurd h hr
    · exact isResponse_responseCommand hreq hneeds

theorem makeResponse_eq (h : Convertible pkt) :
    makeResponse pkt = .ok { pkt with cmd := pkt.cmd.responseCommand } := by
  simp [makeResponse, ensure, h.1, h.2]

theorem recvTimingResp_answer (hready : b.cpuSidePort.Ready) (h : Answer pkt) :
    recvTimingResp b pkt = .ok { b with cpuSidePort := b.cpuSidePort.pushed (answer pkt) } := by
  unfold recvTimingResp answer
  by_cases hr : pkt.cmd.isResponse = true
  · rw [if_pos hr, if_pos hr, schedTimingResp_eq hready]
    rfl
  · have hc : Convertible pkt := h.resolve_left hr
    rw [if_neg hr, if_neg hr, if_pos hc]
    exact bind_ok_iff.mpr ⟨_, makeResponse_eq hc,
      bind_ok_iff.mpr ⟨_, schedTimingResp_eq hready, rfl⟩⟩

theorem recvTimingResp_other (h : ¬ Answer pkt) : recvTimingResp b pkt = .ok b := by
  unfold recvTimingResp
  rw [if_neg fun hr => h (Or.inl hr), if_neg fun hc => h (Or.inr hc)]
  rfl

/-- A request is ignored while a retry is due, stalled while a queue is full, and
otherwise accepted with a slot for its response. -/
theorem recvTimingReq_cases (c : Limits) (pkt : Packet) (hready : b.memSidePort.Ready) :
    recvTimingReq c b pkt = .ok (b, false) ∧ b.retryReq = true ∨
    recvTimingReq c b pkt = .ok ({ b with retryReq := true }, false) ∧
      (reqQueueFull c b.memSidePort ∨ respQueueFull c b) ∨
    recvTimingReq c b pkt = .ok ({ b with
        outstandingResponses := b.outstandingResponses + (expecting [pkt]).card
        memSidePort := b.memSidePort.pushed pkt }, true) ∧
      b.retryReq = false ∧ ¬ reqQueueFull c b.memSidePort ∧
      (pkt.cmd.needsResponse = true → ¬ respQueueFull c b) := by
  unfold recvTimingReq
  by_cases hretry : b.retryReq = true
  · exact Or.inl ⟨if_pos hretry, hretry⟩
  rw [if_neg hretry]
  by_cases hfull : reqQueueFull c b.memSidePort
  · exact Or.inr (Or.inl ⟨if_pos hfull, Or.inl hfull⟩)
  rw [if_neg hfull]
  by_cases hslots : pkt.cmd.needsResponse = true ∧ respQueueFull c b
  · exact Or.inr (Or.inl ⟨if_pos hslots, Or.inr hslots.2⟩)
  refine Or.inr (Or.inr ⟨?_, Bool.eq_false_iff.mpr hretry, hfull, fun hn hf => hslots ⟨hn, hf⟩⟩)
  rw [if_neg hslots]
  by_cases hneeds : pkt.cmd.needsResponse = true
  · have hfree : b.outstandingResponses ≠ c.respQueueLimit := fun hf => hslots ⟨hneeds, hf⟩
    simp [hneeds, ensure, hfree, schedTimingReq_eq hready hfull, expecting]
  · simp [hneeds, schedTimingReq_eq hready hfull, expecting]

def released (c : Limits) (b : BridgeBase) : BridgeBase :=
  { b with
    cpuSidePort := b.cpuSidePort.popped
    outstandingResponses := b.outstandingResponses - 1
    retryReq := b.retryReq && decide (reqQueueFull c b.memSidePort) }

theorem popResponse_eq (h : b.outstandingResponses ≠ 0) :
    popResponse c b = .ok (released c b) := by
  unfold popResponse
  refine bind_ok_iff.mpr ⟨⟨⟩, ensure_ok_iff.mpr h, bind_ok_iff.mpr ⟨_, scheduleNext_eq, ?_⟩⟩
  unfold released retryStalledReq
  by_cases hfull : reqQueueFull c b.memSidePort
  · simp [hfull]
  · cases b.retryReq <;> simp [hfull]

theorem popResponse_fault (h : b.outstandingResponses = 0) :
    popResponse c b = .error .noOutstandingResponse := by
  unfold popResponse
  exact bind_error_iff.mpr (Or.inl (if_neg fun hne => hne h))

theorem reqReturned_accepted : reqReturned b true =
    .ok { b with memSidePort := b.memSidePort.popped, retryReq := false } := by
  unfold reqReturned
  refine bind_ok_iff.mpr ⟨_, scheduleNext_eq, ?_⟩
  cases b.retryReq <;> simp [retryStalledReq]

theorem reqTrySendTiming_eq (hne : b.memSidePort.transmitList ≠ [])
    (hreq : ∀ pkt ∈ b.memSidePort.transmitList, pkt.cmd.isRequest = true) :
    reqTrySendTiming b =
      .ok { b with memSidePort := ⟨b.memSidePort.transmitList, .calling⟩ } := by
  unfold reqTrySendTiming
  split
  next hnil => exact absurd hnil hne
  next pkt rest heq =>
    have hpkt : pkt.cmd.isRequest = true := hreq pkt (heq ▸ List.mem_cons_self)
    rw [heq]
    exact bind_ok_iff.mpr ⟨⟨⟩, ensure_ok_iff.mpr hpkt, rfl⟩

theorem respTrySendTiming_eq (hne : b.cpuSidePort.transmitList ≠ [])
    (hresp : ∀ pkt ∈ b.cpuSidePort.transmitList, pkt.cmd.isResponse = true) :
    respTrySendTiming c b =
      .ok ({ b with cpuSidePort := ⟨b.cpuSidePort.transmitList, .calling⟩ }, false) := by
  unfold respTrySendTiming
  split
  next hnil => exact absurd hnil hne
  next pkt rest heq =>
    rw [if_pos (hresp pkt (heq ▸ List.mem_cons_self)), heq]
    rfl

/-! ## Where the slots are -/

theorem expecting_append (q r : List Packet) : expecting (q ++ r) = expecting q + expecting r := by
  simp [expecting]

theorem ids_append (q r : List Packet) : ids (q ++ r) = ids q + ids r := by
  simp [ids]

theorem expecting_uncons (q : List Packet) :
    expecting q = expecting (q.take 1) + expecting q.tail := by
  rw [← expecting_append, ← List.drop_one, List.take_append_drop]

theorem ids_uncons (q : List Packet) : ids q = ids (q.take 1) + ids q.tail := by
  rw [← ids_append, ← List.drop_one, List.take_append_drop]

theorem card_ids (q : List Packet) : (ids q).card = q.length := by
  simp [ids]

structure Kept (c : Limits) (s : State) : Prop where
  counted : s.bridge.outstandingResponses = s.owed.card
  owed : s.owed = expecting s.bridge.memSidePort.transmitList + s.awaited +
    ids s.bridge.cpuSidePort.transmitList
  slots : s.bridge.outstandingResponses ≤ c.respQueueLimit
  requests : ∀ pkt ∈ s.bridge.memSidePort.transmitList, pkt.cmd.isRequest = true
  responses : ∀ pkt ∈ s.bridge.cpuSidePort.transmitList, pkt.cmd.isResponse = true
  memReady : s.bridge.memSidePort.Ready
  cpuReady : s.bridge.cpuSidePort.Ready
  retry : s.bridge.retryReq = true → s.bridge.memSidePort.transmitList ≠ [] ∨ s.owed ≠ 0
  discarded : s.discarded = 0

theorem ne_nil_of_full (h : reqQueueFull c p) : p.transmitList ≠ [] := by
  have hlen : p.transmitList.length = c.reqQueueLimit := h
  exact List.length_pos_iff.mp (hlen ▸ c.req_pos)

theorem kept_init : Kept c init where
  counted := rfl
  owed := rfl
  slots := Nat.zero_le _
  requests := fun _ hp => absurd hp List.not_mem_nil
  responses := fun _ hp => absurd hp List.not_mem_nil
  memReady := ⟨fun _ => rfl, fun _ => rfl⟩
  cpuReady := ⟨fun _ => rfl, fun _ => rfl⟩
  retry := fun h => absurd h Bool.false_ne_true
  discarded := rfl

/-- A request is stalled only when one of the two queues is full, so not empty. -/
theorem Kept.stalled (h : Kept c s)
    (hfull : reqQueueFull c s.bridge.memSidePort ∨ respQueueFull c s.bridge) :
    Kept c { s with bridge := { s.bridge with retryReq := true } } where
  __ := h
  retry := by
    intro _
    rcases hfull with hfull | hfull
    · exact Or.inl (ne_nil_of_full hfull)
    · refine Or.inr (Multiset.card_pos.mp ?_)
      rw [← h.counted, show s.bridge.outstandingResponses = _ from hfull]
      exact c.resp_pos

theorem Kept.accepted (h : Kept c s) (hreq : pkt.cmd.isRequest = true)
    (hretry : s.bridge.retryReq = false)
    (hslot : pkt.cmd.needsResponse = true → ¬ respQueueFull c s.bridge) :
    Kept c { s with
      bridge := { s.bridge with
        outstandingResponses := s.bridge.outstandingResponses + (expecting [pkt]).card
        memSidePort := s.bridge.memSidePort.pushed pkt }
      owed := expecting [pkt] + s.owed } where
  __ := h
  counted := by
    show s.bridge.outstandingResponses + (expecting [pkt]).card = _
    rw [Multiset.card_add, h.counted]
    exact Nat.add_comm _ _
  owed := by
    show expecting [pkt] + s.owed = expecting (_ ++ [pkt]) + s.awaited +
      ids s.bridge.cpuSidePort.transmitList
    rw [expecting_append, h.owed]
    abel
  slots := by
    have hle := h.slots
    show s.bridge.outstandingResponses + (expecting [pkt]).card ≤ c.respQueueLimit
    by_cases hneeds : pkt.cmd.needsResponse = true
    · have hne : s.bridge.outstandingResponses ≠ c.respQueueLimit := hslot hneeds
      have hone : (expecting [pkt]).card = 1 := by simp [expecting, hneeds]
      omega
    · have hzero : (expecting [pkt]).card = 0 := by simp [expecting, hneeds]
      omega
  requests := by
    intro q hq
    rcases List.mem_append.mp hq with hq | hq
    · exact h.requests q hq
    · exact List.mem_singleton.mp hq ▸ hreq
  memReady := h.memReady.pushed
  retry := fun hr => absurd (hretry.symm.trans hr) Bool.false_ne_true

theorem Kept.answered (h : Kept c s) (hans : Answer pkt) (hmem : pkt.id ∈ s.awaited) :
    Kept c { s with
      bridge := { s.bridge with cpuSidePort := s.bridge.cpuSidePort.pushed (answer pkt) }
      awaited := s.awaited.erase pkt.id } where
  __ := h
  owed := by
    show s.owed = _ + s.awaited.erase pkt.id + ids (_ ++ [answer pkt])
    have hone : ids [answer pkt] = {pkt.id} := by
      rw [← answer_id]
      rfl
    have hcons : s.awaited = {pkt.id} + s.awaited.erase pkt.id := (Multiset.cons_erase hmem).symm
    rw [ids_append, hone, h.owed]
    nth_rewrite 1 [hcons]
    abel
  responses := by
    intro q hq
    rcases List.mem_append.mp hq with hq | hq
    · exact h.responses q hq
    · exact List.mem_singleton.mp hq ▸ hans.isResponse
  cpuReady := h.cpuReady.pushed

theorem Kept.reqTurned (h : Kept c s) (hturn : s.bridge.memSidePort.turn ≠ .idle) {u : Turn}
    (hu : u ≠ .idle) :
    Kept c { s with bridge := { s.bridge with
      memSidePort := ⟨s.bridge.memSidePort.transmitList, u⟩ } } where
  __ := h
  memReady := h.memReady.turned hturn hu

theorem Kept.respTurned (h : Kept c s) (hturn : s.bridge.cpuSidePort.turn ≠ .idle) {u : Turn}
    (hu : u ≠ .idle) :
    Kept c { s with bridge := { s.bridge with
      cpuSidePort := ⟨s.bridge.cpuSidePort.transmitList, u⟩ } } where
  __ := h
  cpuReady := h.cpuReady.turned hturn hu

theorem Kept.forwarded (h : Kept c s) :
    Kept c { s with
      bridge := { s.bridge with memSidePort := s.bridge.memSidePort.popped, retryReq := false }
      awaited := expecting (s.bridge.memSidePort.transmitList.take 1) + s.awaited } where
  __ := h
  owed := by
    show s.owed = expecting s.bridge.memSidePort.transmitList.tail +
      (expecting (s.bridge.memSidePort.transmitList.take 1) + s.awaited) +
      ids s.bridge.cpuSidePort.transmitList
    rw [h.owed, expecting_uncons s.bridge.memSidePort.transmitList]
    abel
  requests := fun q hq => h.requests q (List.mem_of_mem_tail hq)
  memReady := Port.popped_ready
  retry := fun hr => absurd hr Bool.false_ne_true

/-- The head of the response queue holds a slot, so there is one to release. -/
theorem Kept.sent (h : Kept c s) (hne : s.bridge.cpuSidePort.transmitList ≠ []) :
    s.bridge.outstandingResponses ≠ 0 ∧
    Kept c { s with
      bridge := released c s.bridge
      owed := s.owed - ids (s.bridge.cpuSidePort.transmitList.take 1) } := by
  have hsplit : s.owed = ids (s.bridge.cpuSidePort.transmitList.take 1) +
      (expecting s.bridge.memSidePort.transmitList + s.awaited +
        ids s.bridge.cpuSidePort.transmitList.tail) := by
    rw [h.owed, ids_uncons s.bridge.cpuSidePort.transmitList]
    abel
  have hone : (ids (s.bridge.cpuSidePort.transmitList.take 1)).card = 1 := by
    rw [card_ids, List.length_take]
    exact Nat.min_eq_left (List.length_pos_iff.mpr hne)
  have hcard := h.counted
  rw [hsplit, Multiset.card_add, hone] at hcard
  have hcount := Nat.sub_eq_of_eq_add' hcard
  refine ⟨by omega, ?_⟩
  rw [hsplit, add_tsub_cancel_left]
  exact {
    __ := h
    counted := hcount
    owed := rfl
    slots := (Nat.sub_le _ _).trans h.slots
    responses := fun q hq => h.responses q (List.mem_of_mem_tail hq)
    cpuReady := Port.popped_ready
    retry := fun hr =>
      Or.inl (ne_nil_of_full (of_decide_eq_true ((Bool.and_eq_true _ _).mp hr).2)) }

/-! ## Every run -/

theorem Kept.request {r : Except Fault State} (h : Kept c s)
    (hr : step c s (.request pkt) = some r) : ∃ t, r = .ok t ∧ Kept c t := by
  simp only [Bridge.step] at hr
  split at hr
  next hreq =>
    rw [← Option.some.inj hr]
    rcases recvTimingReq_cases c pkt h.memReady with
      ⟨heq, -⟩ | ⟨heq, hfull⟩ | ⟨heq, hretry, -, hslot⟩
    · exact ⟨s, by rw [heq]; rfl, h⟩
    · exact ⟨_, by rw [heq]; rfl, h.stalled hfull⟩
    · exact ⟨_, by rw [heq]; rfl, h.accepted hreq hretry hslot⟩
  next => cases hr

theorem Kept.deliver {r : Except Fault State} (h : Kept c s)
    (hl : Legit s (.deliver pkt)) (hr : step c s (.deliver pkt) = some r) :
    ∃ t, r = .ok t ∧ Kept c t := by
  simp only [Bridge.step] at hr
  rw [← Option.some.inj hr]
  by_cases hans : Answer pkt
  · rw [recvTimingResp_answer h.cpuReady hans, if_pos hans]
    exact ⟨_, rfl, h.answered hans (hl hans)⟩
  · rw [recvTimingResp_other hans, if_neg hans]
    exact ⟨s, rfl, h⟩

theorem Kept.sendReq {r : Except Fault State} (h : Kept c s)
    (hr : step c s .sendReq = some r) : ∃ t, r = .ok t ∧ Kept c t := by
  simp only [Bridge.step] at hr
  split at hr
  next hdue =>
    rw [← Option.some.inj hr,
      reqTrySendTiming_eq (h.memReady.ne_nil hdue.ne_idle) h.requests]
    exact ⟨_, rfl, h.reqTurned hdue.ne_idle (by simp)⟩
  next => cases hr

theorem Kept.reqReturn {r : Except Fault State} {accepted : Bool} (h : Kept c s)
    (hr : step c s (.reqReturn accepted) = some r) : ∃ t, r = .ok t ∧ Kept c t := by
  simp only [Bridge.step] at hr
  split at hr
  next hcall =>
    rw [← Option.some.inj hr]
    cases accepted with
    | true =>
      rw [reqReturned_accepted]
      exact ⟨_, rfl, h.forwarded⟩
    | false => exact ⟨_, rfl, h.reqTurned (by simp [hcall]) (by simp)⟩
  next => cases hr

theorem Kept.sendResp {r : Except Fault State} (h : Kept c s)
    (hr : step c s .sendResp = some r) : ∃ t, r = .ok t ∧ Kept c t := by
  simp only [Bridge.step] at hr
  split at hr
  next hdue =>
    rw [← Option.some.inj hr,
      respTrySendTiming_eq (h.cpuReady.ne_nil hdue.ne_idle) h.responses]
    exact ⟨_, rfl, h.respTurned hdue.ne_idle (by simp)⟩
  next => cases hr

theorem Kept.respReturn {r : Except Fault State} {accepted : Bool} (h : Kept c s)
    (hr : step c s (.respReturn accepted) = some r) : ∃ t, r = .ok t ∧ Kept c t := by
  simp only [Bridge.step] at hr
  split at hr
  next hcall =>
    have hturn : s.bridge.cpuSidePort.turn ≠ .idle := by simp [hcall]
    rw [← Option.some.inj hr]
    cases accepted with
    | true =>
      obtain ⟨hslot, hsent⟩ := h.sent (h.cpuReady.ne_nil hturn)
      rw [respReturned, if_pos rfl, popResponse_eq hslot]
      exact ⟨_, rfl, hsent⟩
    | false => exact ⟨_, rfl, h.respTurned hturn (by simp)⟩
  next => cases hr

/-- Whatever the peers do within their protocol, no assertion fails and every slot
stays where it can be released. -/
theorem Kept.step {r : Except Fault State} {a : Action} (h : Kept c s) (hl : Legit s a)
    (hr : step c s a = some r) : ∃ t, r = .ok t ∧ Kept c t := by
  cases a with
  | request pkt => exact h.request hr
  | deliver pkt => exact h.deliver hl hr
  | sendReq => exact h.sendReq hr
  | reqReturn accepted => exact h.reqReturn hr
  | sendResp => exact h.sendResp hr
  | respReturn accepted => exact h.respReturn hr

theorem kept_run {as : List Action} {t : State} (h : Kept c s)
    (hl : Meets (next c) Legit s as) (hr : exec (next c) s as = some t) : Kept c t := by
  refine exec_invariant_of_meets (I := Kept c) ?_ h hl hr
  intro s a t h hl ht
  obtain ⟨u, hu, hkept⟩ := h.step hl (next_eq_some.mp ht)
  exact Except.ok.inj hu ▸ hkept

/-- In every run the reserved slots are those of the packets still to be handed
upstream, none of the assertions fails, only responses wait to be sent upstream,
and a stalled requestor waits for a packet that is still on its way. -/
theorem slots_accounted_in_every_run (c : Limits) (as : List Action) (s : State)
    (hl : Meets (next c) Legit init as) (hr : exec (next c) init as = some s) :
    s.bridge.outstandingResponses = s.owed.card ∧
    s.bridge.outstandingResponses ≤ c.respQueueLimit ∧
    (∀ a, Legit s a → ∀ f, step c s a ≠ some (.error f)) ∧
    (∀ pkt ∈ s.bridge.cpuSidePort.transmitList, pkt.cmd.isResponse = true) ∧
    s.discarded = 0 ∧
    (s.bridge.retryReq = true → s.bridge.memSidePort.transmitList ≠ [] ∨
      s.bridge.cpuSidePort.transmitList ≠ [] ∨ s.awaited ≠ 0) := by
  have h : Kept c s := kept_run kept_init hl hr
  refine ⟨h.counted, h.slots, ?_, h.responses, h.discarded, ?_⟩
  · intro a hla f hf
    obtain ⟨t, ht, -⟩ := h.step hla hf
    cases ht
  · intro hretry
    by_contra hnone
    obtain ⟨hmem, hcpu, hawaited⟩ := not_or.mp hnone |>.imp_right not_or.mp
    have howed := h.owed
    rw [not_not.mp hmem, not_not.mp hcpu, not_not.mp hawaited] at howed
    rcases h.retry hretry with hne | hne
    · exact hmem hne
    · exact hne howed

-- one slot on each side: the second request stalls, first on the request queue and
-- then on the response slots, while the device hands the first one back unconverted
def tight : Limits := ⟨1, 1, Nat.one_pos, Nat.one_pos⟩

def stalledRun : List Action :=
  [.request ⟨0, .readReq⟩, .request ⟨1, .writeReq⟩, .sendReq, .reqReturn false, .sendReq,
    .reqReturn true, .request ⟨1, .writeReq⟩, .deliver ⟨7, .cleanEvict⟩, .deliver ⟨0, .readReq⟩]

def stalledState : State where
  bridge := ⟨⟨[⟨0, .readResp⟩], .scheduled⟩, ⟨[], .idle⟩, 1, true⟩
  awaited := 0
  owed := {0}
  discarded := 0

theorem slots_accounted_in_every_run_stalled :
    exec (next tight) init stalledRun = some stalledState ∧
    (stalledState.bridge.retryReq = true → stalledState.bridge.memSidePort.transmitList ≠ [] ∨
      stalledState.bridge.cpuSidePort.transmitList ≠ [] ∨ stalledState.awaited ≠ 0) := by
  have hrun : exec (next tight) init stalledRun = some stalledState := by decide +kernel
  have h := slots_accounted_in_every_run tight stalledRun stalledState (by decide +kernel) hrun
  exact ⟨hrun, h.2.2.2.2.2⟩

end PnmCompaction.Bridge
