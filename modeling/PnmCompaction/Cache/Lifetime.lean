import PnmCompaction.Cache.Mshr
import PnmCompaction.Lib.Exec

/-!
# One MSHR over its lifetime

The operations of `MSHR` on its two target lists (mshr.cc 189-218, 303-709) in any
order, from `allocate` on. Between them the packets of its targets may turn into
responses, and the cache and its neighbours may set the other fields at will.
-/

namespace PnmCompaction.Cache.Lifetime

open PnmCompaction.Lib.Checked PnmCompaction.Lib.Exec

/-- `serviced` records what `extractServiceableTargets` has returned, in order. -/
structure Life where
  heap : Heap
  mshr : Mshr
  serviced : List Target

inductive Op
  | allocateTarget (pkt : PacketId) (allocOnFill : Bool)
  | handleSnoop (p : Packet) (copy : PacketId)
  | replaceUpgrades (deferred : Bool)
  | promoteReadable
  | promoteWritable
  | promoteDeferredTargets
  | extractServiceableTargets (cmd : MemCmd)
  | answer (h : Heap)
  | mark (inService downstreamPending pendingModified postInvalidate postDowngrade
      wasWholeLineWrite isForward : Bool)

def start (id blkAddr blkSize : ℕ) (h : Heap) (target : PacketId) (allocOnFill : Bool) : Life :=
  ⟨h, Mshr.allocate id blkAddr blkSize h target allocOnFill, []⟩

/-- The copy of a snoop is a new object; a packet that is a target stays as it is
or becomes a response. -/
def Enabled (s : Life) : Op → Prop
  | .handleSnoop _ copy => copy ∉ s.mshr.pkts
  | .answer h => ∀ i ∈ s.mshr.pkts, h i = s.heap i ∨ (h i).cmd.isResponse = true
  | _ => True

instance (s : Life) : (op : Op) → Decidable (Enabled s op)
  | .handleSnoop _ copy => inferInstanceAs (Decidable (copy ∉ s.mshr.pkts))
  | .answer h => inferInstanceAs
      (Decidable (∀ i ∈ s.mshr.pkts, h i = s.heap i ∨ (h i).cmd.isResponse = true))
  | .allocateTarget _ _ | .replaceUpgrades _ | .promoteReadable | .promoteWritable
  | .promoteDeferredTargets | .extractServiceableTargets _ | .mark _ _ _ _ _ _ _ => .isTrue trivial

def run (s : Life) : Op → Except Assertion Life
  | .allocateTarget pkt a => do
    let r ← s.mshr.allocateTarget s.heap pkt a
    pure { s with heap := r.1, mshr := r.2 }
  | .handleSnoop p copy => do
    let r ← s.mshr.handleSnoop s.heap p copy
    pure { s with heap := r.heap, mshr := r.mshr }
  | .replaceUpgrades deferred =>
    if deferred then
      let r := s.mshr.deferredTargets.replaceUpgrades s.heap
      pure { s with heap := r.1, mshr := { s.mshr with deferredTargets := r.2 } }
    else
      let r := s.mshr.targets.replaceUpgrades s.heap
      pure { s with heap := r.1, mshr := { s.mshr with targets := r.2 } }
  | .promoteReadable => do
    let m ← s.mshr.promoteReadable s.heap
    pure { s with mshr := m }
  | .promoteWritable => do
    let m ← s.mshr.promoteWritable s.heap
    pure { s with mshr := m }
  | .promoteDeferredTargets =>
    pure { s with mshr := (s.mshr.promoteDeferredTargets s.heap).getD s.mshr }
  | .extractServiceableTargets cmd => do
    let r ← s.mshr.extractServiceableTargets s.heap cmd
    pure { s with mshr := r.2, serviced := s.serviced ++ r.1.list }
  | .answer h => pure { s with heap := h }
  | .mark inService downstreamPending pendingModified postInvalidate postDowngrade
      wasWholeLineWrite isForward =>
    pure { s with
      mshr := { s.mshr with
        inService := inService
        downstreamPending := downstreamPending
        pendingModified := pendingModified
        postInvalidate := postInvalidate
        postDowngrade := postDowngrade
        wasWholeLineWrite := wasWholeLineWrite
        isForward := isForward } }

/-- A failed assertion ends the simulation. -/
def step (s : Life) (op : Op) : Option Life :=
  if Enabled s op then (run s op).toOption else none

theorem step_cases {s t : Life} {op : Op} (h : step s op = some t) :
    Enabled s op ∧ run s op = .ok t := by
  unfold step at h
  split at h
  · next he =>
    cases hr : run s op with
    | error e =>
      rw [hr] at h
      cases h
    | ok u =>
      rw [hr] at h
      obtain rfl := Option.some.inj h
      exact ⟨he, rfl⟩
  · cases h

/-! ### What the operations do to the lists -/

/-- The two lists in the order in which they are serviced. -/
def Life.queue (s : Life) : List Target := s.mshr.targets.list ++ s.mshr.deferredTargets.list

theorem pkts_eq (s : Life) : s.mshr.pkts = s.queue.map Target.pkt := rfl

/-- A new target goes to the end of both lists taken together: it joins the first
of them only while nothing is deferred. -/
theorem allocateTarget_queue {m m' : Mshr} {h h' : Heap} {pkt : PacketId} {a : Bool}
    (hr : m.allocateTarget h pkt a = .ok (h', m')) :
    m'.targets.list ++ m'.deferredTargets.list =
      m.targets.list ++ m.deferredTargets.list ++ [⟨pkt, .fromCPU, a⟩] := by
  simp only [Mshr.allocateTarget, bind_ok_iff, ensure_ok_iff, exists_const] at hr
  obtain ⟨_, first, -, d, hd, hr⟩ := hr
  cases d with
  | true =>
    simp only [if_true, pure_ok_iff, Prod.mk.injEq] at hr
    obtain ⟨-, rfl⟩ := hr
    simp only [TargetList.add_list, List.append_assoc]
  | false =>
    simp only [Bool.false_eq_true, if_false, pure_ok_iff, Prod.mk.injEq] at hr
    obtain ⟨-, rfl⟩ := hr
    have hnone : m.deferredTargets.list = [] := by
      unfold Mshr.defers at hd
      split at hd
      · cases hd
      · next hcond =>
        simp only [Bool.or_eq_true, Bool.not_eq_true', not_or, Bool.not_eq_false,
          List.isEmpty_iff] at hcond
        exact hcond.2
    simp only [TargetList.add_list, hnone, List.append_nil]

theorem promoteDeferredTargets_queue (m : Mshr) (h : Heap) :
    ((m.promoteDeferredTargets h).getD m).targets.list ++
        ((m.promoteDeferredTargets h).getD m).deferredTargets.list =
      m.targets.list ++ m.deferredTargets.list := by
  cases hp : m.promoteDeferredTargets h with
  | none => rfl
  | some m' => exact (Mshr.promoteDeferredTargets_some hp).lists

end PnmCompaction.Cache.Lifetime
