import Mathlib.Logic.Relation
import PnmCompaction.Bridge.Slots

/-!
# Packets the bridge never forwarded

A device below the bridge may deliver a packet of its own. The bridge queues it
when it is a response or a request that it can convert; the crossbar above finds
no route for it and drops it (`CoherentXBar::recvTimingResp`, mem/coherent_xbar.cc
446-463), which the bridge sees as a successful send. The slot that the send then
releases was never reserved for it.
-/

namespace PnmCompaction.Bridge

open PnmCompaction.Lib.Checked PnmCompaction.Lib.Exec

variable {c : Limits} {s : State} {pkt : Packet}

/-- `CoherentXBar::recvTimingResp`: a response without a route is dropped and
reported as taken, another is taken when the layer of its port is free. -/
def xbarRecvTimingResp (routeTo : Multiset ℕ) (layerFree : Bool) (pkt : Packet) : Bool :=
  if pkt.id ∈ routeTo then layerFree else true

/-- The crossbar has a route for each packet that it sent into the bridge and that
expects a response. -/
def Routed (s : State) : Action → Prop
  | .respReturn accepted => ∀ pkt ∈ s.bridge.cpuSidePort.transmitList.head?,
      ∃ layerFree, accepted = xbarRecvTimingResp s.owed layerFree pkt
  | _ => True

/-- A step with the crossbar above, and below a peer that keeps to the protocol. -/
def Proper (c : Limits) (s t : State) : Prop :=
  ∃ a, Legit s a ∧ Routed s a ∧ next c s a = some t

/-- The delivered packet fails no assertion, at once or later, and the counter
goes on counting the packets that are still to be handed upstream, so that the
free slots stay those that they do not use. -/
def Harmless (c : Limits) (s : State) (pkt : Packet) : Prop :=
  ∃ u, step c s (.deliver pkt) = some (.ok u) ∧
    ∀ t, Relation.ReflTransGen (Proper c) u t →
      t.bridge.outstandingResponses = t.owed.card ∧
      ∀ a, Legit t a → Routed t a → ∀ f, step c t a ≠ some (.error f)

theorem kept_proper {t u : State} (h : Kept c u) (ht : Relation.ReflTransGen (Proper c) u t) :
    Kept c t := by
  induction ht with
  | refl => exact h
  | tail _ hstep ih =>
    obtain ⟨a, hl, -, hnext⟩ := hstep
    obtain ⟨v, hv, hkept⟩ := ih.step hl (next_eq_some.mp hnext)
    exact Except.ok.inj hv ▸ hkept

theorem harmless_of_not_answer (h : Kept c s) (hans : ¬ Answer pkt) : Harmless c s pkt := by
  obtain ⟨u, hu, hkept⟩ := h.deliver (fun ha => absurd ha hans) (r := _) rfl
  refine ⟨u, congrArg some hu, fun t ht => ?_⟩
  have hkept := kept_proper hkept ht
  refine ⟨hkept.counted, fun a hl _ f hf => ?_⟩
  obtain ⟨v, hv, -⟩ := hkept.step hl hf
  cases hv

/-! ## A queued orphan -/

/-- The response queue ends in an orphan; the packets before it hold slots. -/
structure Orphaned (s : State) (q : List Packet) (o : Packet) : Prop where
  counted : s.bridge.outstandingResponses = s.owed.card
  queue : s.bridge.cpuSidePort.transmitList = q ++ [o]
  backed : ids q ≤ s.owed
  orphan : o.id ∉ s.owed
  responses : ∀ pkt ∈ s.bridge.cpuSidePort.transmitList, pkt.cmd.isResponse = true
  ready : s.bridge.cpuSidePort.Ready

theorem Orphaned.ne_nil {q : List Packet} {o : Packet} (h : Orphaned s q o) :
    s.bridge.cpuSidePort.transmitList ≠ [] := by
  rw [h.queue]
  exact List.append_ne_nil_of_right_ne_nil q (List.cons_ne_nil o [])

theorem orphaned_deliver (h : Kept c s) (hans : Answer pkt) (hid : pkt.id ∉ s.owed) :
    ∃ u, step c s (.deliver pkt) = some (.ok u) ∧
      Orphaned u s.bridge.cpuSidePort.transmitList (answer pkt) := by
  refine ⟨_, by rw [step, recvTimingResp_answer h.cpuReady hans]; rfl, ?_⟩
  exact {
    counted := h.counted
    queue := rfl
    backed := h.owed ▸ Multiset.le_add_left _ _
    orphan := by
      rw [answer_id]
      exact hid
    responses := by
      intro q hq
      rcases List.mem_append.mp hq with hq | hq
      · exact h.responses q hq
      · exact List.mem_singleton.mp hq ▸ hans.isResponse
    ready := h.cpuReady.pushed }

theorem Orphaned.called {q : List Packet} {o : Packet} (h : Orphaned s q o) :
    ∃ t, Relation.ReflTransGen (Proper c) s t ∧ Orphaned t q o ∧
      t.bridge.cpuSidePort.turn = .calling := by
  by_cases hcall : s.bridge.cpuSidePort.turn = .calling
  · exact ⟨s, .refl, h, hcall⟩
  have hdue : Due s.bridge.cpuSidePort := by
    have hidle : s.bridge.cpuSidePort.turn ≠ .idle := fun hi => h.ne_nil (h.ready.mpr hi)
    unfold Due
    cases hturn : s.bridge.cpuSidePort.turn <;> simp_all
  have hstep : next c s .sendResp = some { s with bridge := { s.bridge with
      cpuSidePort := ⟨s.bridge.cpuSidePort.transmitList, .calling⟩ } } := by
    refine next_eq_some.mpr ?_
    rw [step, if_pos hdue, respTrySendTiming_eq h.ne_nil h.responses]
    rfl
  refine ⟨_, .single ⟨.sendResp, trivial, trivial, hstep⟩, ?_, rfl⟩
  exact { h with ready := h.ready.turned hdue.ne_idle (by simp) }

/-- The crossbar can take whatever comes: what it routes while the layer is free,
and an orphan in any case. -/
theorem routed_accepted : Routed s (.respReturn true) := by
  intro pkt _
  refine ⟨true, ?_⟩
  unfold xbarRecvTimingResp
  split <;> rfl

theorem step_respReturn_accepted (hcall : s.bridge.cpuSidePort.turn = .calling) :
    step c s (.respReturn true) = some (popResponse c s.bridge >>= fun b => pure { s with
      bridge := b
      owed := s.owed - ids (s.bridge.cpuSidePort.transmitList.take 1) }) := by
  rw [step, if_pos hcall]
  rfl

/-- The packet ahead of the orphan is handed upstream and releases its own slot. -/
theorem Orphaned.advanced {q : List Packet} {x o : Packet} (h : Orphaned s (x :: q) o)
    (hcall : s.bridge.cpuSidePort.turn = .calling) :
    ∃ t, Proper c s t ∧ Orphaned t q o := by
  have hhead : ids (s.bridge.cpuSidePort.transmitList.take 1) = {x.id} := by
    rw [h.queue]
    rfl
  have hbacked : x.id ::ₘ ids q ≤ s.owed := h.backed
  have hmem : x.id ∈ s.owed := Multiset.mem_of_le hbacked (Multiset.mem_cons_self _ _)
  have hslot : s.bridge.outstandingResponses ≠ 0 := by
    rw [h.counted]
    exact (Multiset.card_pos_iff_exists_mem.mpr ⟨_, hmem⟩).ne'
  have hstep : next c s (.respReturn true) = some { s with
      bridge := released c s.bridge
      owed := s.owed - ids (s.bridge.cpuSidePort.transmitList.take 1) } := by
    refine next_eq_some.mpr ?_
    rw [step_respReturn_accepted hcall, popResponse_eq hslot]
    rfl
  have htail : s.bridge.cpuSidePort.transmitList.tail = q ++ [o] := by
    rw [h.queue]
    rfl
  rw [hhead, Multiset.sub_singleton] at hstep
  refine ⟨_, ⟨.respReturn true, trivial, routed_accepted, hstep⟩, ?_⟩
  exact {
    counted := by
      show s.bridge.outstandingResponses - 1 = (s.owed.erase x.id).card
      rw [h.counted, Multiset.card_erase_of_mem hmem]
      rfl
    queue := htail
    backed := by
      have hle := Multiset.erase_le_erase x.id hbacked
      rwa [Multiset.erase_cons_head] at hle
    orphan := fun ho => h.orphan (Multiset.mem_of_mem_erase ho)
    responses := fun p hp => h.responses p (List.mem_of_mem_tail hp)
    ready := Port.popped_ready }

theorem Orphaned.drained {q : List Packet} {o : Packet} (h : Orphaned s q o) :
    ∃ t, Relation.ReflTransGen (Proper c) s t ∧ Orphaned t [] o ∧
      t.bridge.cpuSidePort.turn = .calling := by
  induction q generalizing s with
  | nil => exact h.called
  | cons x q ih =>
    obtain ⟨t, hst, ht, hcall⟩ := h.called
    obtain ⟨u, htu, hu⟩ := ht.advanced hcall
    obtain ⟨v, huv, hv, hcall⟩ := ih hu
    exact ⟨v, (hst.tail htu).trans huv, hv, hcall⟩

/-- Once the orphan is sent, its release fails the assertion or takes the slot of
another packet. -/
theorem Orphaned.fails {o : Packet} (h : Orphaned s [] o)
    (hcall : s.bridge.cpuSidePort.turn = .calling)
    (hcount : ∀ t, Proper c s t → t.bridge.outstandingResponses = t.owed.card) :
    step c s (.respReturn true) = some (.error .noOutstandingResponse) := by
  have hstep := step_respReturn_accepted (c := c) hcall
  by_cases hslot : s.bridge.outstandingResponses = 0
  · rw [hstep, popResponse_fault hslot]
    rfl
  rw [popResponse_eq hslot] at hstep
  have hhead : ids (s.bridge.cpuSidePort.transmitList.take 1) = {o.id} := by
    rw [h.queue]
    rfl
  rw [hhead, Multiset.sub_singleton, Multiset.erase_of_notMem h.orphan] at hstep
  have hlost : s.bridge.outstandingResponses - 1 = s.owed.card :=
    hcount _ ⟨.respReturn true, trivial, routed_accepted, next_eq_some.mpr hstep⟩
  have hexact := h.counted
  omega

/-- In every state that a run within the protocol reaches, a packet that the bridge
never forwarded is harmless exactly when the bridge does not queue it. -/
theorem spurious_harmless_iff (c : Limits) (as : List Action) (s : State) (pkt : Packet)
    (hl : Meets (next c) Legit init as) (hr : exec (next c) init as = some s)
    (hid : pkt.id ∉ s.owed) :
    Harmless c s pkt ↔
      ¬ (pkt.cmd.isResponse = true ∨
        pkt.cmd.isRequest = true ∧ pkt.cmd.needsResponse = true) := by
  have h : Kept c s := kept_run kept_init hl hr
  refine ⟨fun hharmless hans => ?_, harmless_of_not_answer h⟩
  obtain ⟨u, hu, hafter⟩ := hharmless
  obtain ⟨v, hv, horphan⟩ := orphaned_deliver h hans hid
  obtain rfl : u = v := Except.ok.inj (Option.some.inj (hu.symm.trans hv))
  obtain ⟨t, hut, ht, hcall⟩ := horphan.drained (c := c)
  refine (hafter t hut).2 (.respReturn true) trivial routed_accepted .noOutstandingResponse ?_
  exact ht.fails hcall fun w hw => (hafter w (hut.tail hw)).1

-- the bridge has forwarded a request and awaits its response
def awaitingRun : List Action := [.request ⟨0, .readReq⟩, .sendReq, .reqReturn true]

theorem spurious_harmless_iff_evict :
    ∃ s, exec (next tight) init awaitingRun = some s ∧ s.awaited = {0} ∧
      Harmless tight s ⟨7, .cleanEvict⟩ := by
  have hrun : (exec (next tight) init awaitingRun).map (fun s => (s.owed, s.awaited)) =
      some ({0}, {0}) := by decide +kernel
  obtain ⟨s, hs, heq⟩ := Option.map_eq_some_iff.mp hrun
  obtain ⟨howed, hawaited⟩ := Prod.mk.inj heq
  have hlegit : Meets (next tight) Legit init awaitingRun := by decide +kernel
  have hid : (7 : ℕ) ∉ s.owed := by
    rw [howed]
    decide
  exact ⟨s, hs, hawaited,
    (spurious_harmless_iff tight awaitingRun s ⟨7, .cleanEvict⟩ hlegit hs hid).mpr (by decide)⟩

-- a response that no packet of the bridge belongs to reaches an idle bridge, and one
-- that waits for the response of another packet
def idleRun : List Action := [.deliver ⟨7, .readResp⟩, .sendResp]

def busyRun : List Action :=
  awaitingRun ++ [.deliver ⟨7, .readResp⟩, .sendResp, .respReturn true]

theorem spurious_response_releases_slot :
    ((exec (next tight) init idleRun).bind fun s => step tight s (.respReturn true)) =
      some (.error .noOutstandingResponse) ∧
    (exec (next tight) init busyRun).map (fun s =>
      (s.bridge.outstandingResponses, s.owed, s.awaited)) = some (0, {0}, {0}) := by
  constructor <;> decide +kernel

end PnmCompaction.Bridge
