import PnmCompaction.Cache.Lifetime
import PnmCompaction.Cache.Service

/-!
# Targets are serviced in the order of their arrival

Every target is stamped when it is added (the source keeps such an order stamp
with it) together with the command its packet has then. The stamps follow the
targets through the two lists and out of them, beside the program.
-/

namespace PnmCompaction.Cache.Arrival

open PnmCompaction.Lib.Checked PnmCompaction.Lib.Exec
open PnmCompaction.Cache.Lifetime (Life Op)

structure Stamped where
  target : Target
  order : ℕ
  cmd : MemCmd
  deriving DecidableEq, Repr

/-- A request from the CPU side that is not the read half of a locked access. -/
def Stamped.plain (x : Stamped) : Bool :=
  x.target.source == .fromCPU && x.cmd != .lockedRMWReadReq

/-! ### The cut of `extractServiceableTargets` on stamped targets -/

def cutLocked (h : Heap) : List Stamped → List Stamped × List Stamped
  | [] => ([], [])
  | x :: xs =>
    if (h x.target.pkt).cmd = .lockedRMWReadReq then ([x], x :: xs)
    else (x :: (cutLocked h xs).1, (cutLocked h xs).2)

def cut (h : Heap) (cmd : MemCmd) (l : List Stamped) : List Stamped × List Stamped :=
  if cmd = .readRespWithInvalidate then
    match l with
    | [] => ([], [])
    | x :: xs =>
      if (h x.target.pkt).cmd = .lockedRMWReadReq then ([x], x :: xs)
      else (x :: xs.filter (·.target.source ≠ .fromCPU), xs.filter (·.target.source = .fromCPU))
  else cutLocked h l

theorem splitLocked_map (h : Heap) (l : List Stamped) :
    Mshr.splitLocked h (l.map Stamped.target) =
      ((cutLocked h l).1.map Stamped.target, (cutLocked h l).2.map Stamped.target) := by
  induction l with
  | nil => rfl
  | cons x xs ih =>
    rw [List.map_cons, Mshr.splitLocked, cutLocked]
    split
    · rfl
    · rw [ih, List.map_cons]

/-- The cut takes the targets that `extractServiceableTargets` takes. -/
theorem serviceable_map {h : Heap} {cmd : MemCmd} {l : List Stamped} {ready left : List Target}
    (hr : Mshr.serviceable h cmd (l.map Stamped.target) = .ok (ready, left)) :
    ready = (cut h cmd l).1.map Stamped.target ∧ left = (cut h cmd l).2.map Stamped.target := by
  unfold Mshr.serviceable at hr
  unfold cut
  split at hr
  · next hcmd =>
    rw [if_pos hcmd]
    cases l with
    | nil => cases hr
    | cons x xs =>
      simp only [List.map_cons, bind_ok_iff, ensure_ok_iff, exists_const] at hr
      obtain ⟨-, hr⟩ := hr
      dsimp only
      split at hr
      · next hl =>
        cases hr
        rw [if_pos hl]
        exact ⟨rfl, rfl⟩
      · next hl =>
        simp only [bind_ok_iff, ensure_ok_iff, exists_const, pure_ok_iff, Prod.mk.injEq] at hr
        obtain ⟨-, rfl, rfl⟩ := hr
        rw [if_neg hl]
        simp only [List.map_cons, List.filter_map, Function.comp_def, and_self]
  · next hcmd =>
    rw [if_neg hcmd]
    rw [splitLocked_map] at hr
    cases hr
    exact ⟨rfl, rfl⟩

/-- No plain target of the list is, or has become, a locked read. -/
def Unlocked (h : Heap) (l : List Stamped) : Prop :=
  ∀ x ∈ l, x.plain = true → (h x.target.pkt).cmd ≠ .lockedRMWReadReq

-- a locked read that is cut off stays in the list as well, but it is not plain
theorem filter_plain_locked {h : Heap} {x : Stamped} {l : List Stamped} (hu : Unlocked h (x :: l))
    (hl : (h x.target.pkt).cmd = .lockedRMWReadReq) :
    [x].filter Stamped.plain ++ (x :: l).filter Stamped.plain = (x :: l).filter Stamped.plain := by
  have hx : x.plain = false := by
    by_contra hp
    exact hu x List.mem_cons_self (Bool.eq_true_of_not_eq_false hp) hl
  rw [List.filter_singleton, hx]
  rfl

theorem cutLocked_plain {h : Heap} {l : List Stamped} (hu : Unlocked h l) :
    (cutLocked h l).1.filter Stamped.plain ++ (cutLocked h l).2.filter Stamped.plain =
      l.filter Stamped.plain := by
  induction l with
  | nil => rfl
  | cons x xs ih =>
    rw [cutLocked]
    split
    · next hl => exact filter_plain_locked hu hl
    · have htail := ih fun y hy => hu y (List.mem_cons_of_mem x hy)
      simp only [List.filter_cons]
      split
      · rw [List.cons_append, htail]
      · exact htail

-- the targets behind the first one that an invalidating response leaves are the plain ones
theorem filter_plain_split (l : List Stamped) :
    (l.filter (·.target.source ≠ .fromCPU)).filter Stamped.plain = [] ∧
      (l.filter (·.target.source = .fromCPU)).filter Stamped.plain = l.filter Stamped.plain := by
  constructor
  · rw [List.filter_filter, List.filter_eq_nil_iff]
    intro x _ hx
    simp only [Stamped.plain, Bool.and_eq_true, beq_iff_eq, decide_eq_true_eq] at hx
    exact hx.2 hx.1.1
  · rw [List.filter_filter]
    refine List.filter_congr fun x _ => ?_
    simp only [Stamped.plain]
    cases x.target.source <;> simp

/-- Cutting the list keeps the order of its plain targets, and takes none twice. -/
theorem cut_plain {h : Heap} (cmd : MemCmd) {l : List Stamped} (hu : Unlocked h l) :
    (cut h cmd l).1.filter Stamped.plain ++ (cut h cmd l).2.filter Stamped.plain =
      l.filter Stamped.plain := by
  unfold cut
  split
  · cases l with
    | nil => rfl
    | cons x xs =>
      dsimp only
      split
      · next hl => exact filter_plain_locked hu hl
      · obtain ⟨hsnoop, hcpu⟩ := filter_plain_split xs
        rw [hcpu]
        simp only [List.filter_cons, hsnoop]
        split <;> rfl
  · exact cutLocked_plain hu

/-! ### The stamps along a run -/

/-- `queued` are the stamped targets of both lists, `arrived` all that were ever
added, `extracted` all that were handed out for service. -/
structure Trace where
  life : Life
  queued : List Stamped
  extracted : List Stamped
  arrived : List Stamped

def Trace.start (id blkAddr blkSize : ℕ) (h : Heap) (target : PacketId) (allocOnFill : Bool) :
    Trace :=
  let source := if (h target).cmd = .hardPFReq then .fromPrefetcher else .fromCPU
  let x : Stamped := ⟨⟨target, source, allocOnFill⟩, 0, (h target).cmd⟩
  ⟨Lifetime.start id blkAddr blkSize h target allocOnFill, [x], [], [x]⟩

/-- The stamps after an operation that led to `t`. -/
def Trace.follow (s : Trace) (t : Life) : Op → Trace
  | .allocateTarget pkt a =>
    let x : Stamped := ⟨⟨pkt, .fromCPU, a⟩, s.arrived.length, (s.life.heap pkt).cmd⟩
    ⟨t, s.queued ++ [x], s.extracted, s.arrived ++ [x]⟩
  | .handleSnoop p copy =>
    let k := s.life.mshr.targets.list.length
    if t.mshr.targets.list.length = k then { s with life := t }
    else
      -- a saved snoop stands between the targets and the deferred ones
      let x : Stamped := ⟨⟨copy, .fromSnoop, false⟩, s.arrived.length, p.cmd⟩
      ⟨t, s.queued.take k ++ x :: s.queued.drop k, s.extracted, s.arrived ++ [x]⟩
  | .extractServiceableTargets cmd =>
    let k := s.life.mshr.targets.list.length
    let r := cut s.life.heap cmd (s.queued.take k)
    ⟨t, r.2 ++ s.queued.drop k, s.extracted ++ r.1, s.arrived⟩
  | _ => { s with life := t }

def step (s : Trace) (op : Op) : Option Trace := (Lifetime.step s.life op).map (s.follow · op)

structure Ordered (s : Trace) : Prop where
  queue : s.queued.map Stamped.target = s.life.queue
  served : s.extracted.map Stamped.target = s.life.serviced
  unlocked : Unlocked s.life.heap s.queued
  fifo : s.extracted.filter Stamped.plain ++ s.queued.filter Stamped.plain =
    s.arrived.filter Stamped.plain
  stamps : s.arrived.map Stamped.order = List.range s.arrived.length

theorem ordered_start (id blkAddr blkSize : ℕ) (h : Heap) (target : PacketId) (a : Bool) :
    Ordered (Trace.start id blkAddr blkSize h target a) := by
  refine ⟨?_, rfl, ?_, rfl, rfl⟩
  · simp only [Trace.start, Life.queue, Lifetime.start, Mshr.allocate, TargetList.add_list]
    rfl
  · intro x hx hp
    obtain rfl := List.mem_singleton.mp hx
    simp only [Stamped.plain, Bool.and_eq_true, bne_iff_ne] at hp
    exact hp.2

theorem Ordered.split {s : Trace} (h : Ordered s) :
    (s.queued.take s.life.mshr.targets.list.length).map Stamped.target =
        s.life.mshr.targets.list ∧
      (s.queued.drop s.life.mshr.targets.list.length).map Stamped.target =
        s.life.mshr.deferredTargets.list := by
  rw [List.map_take, List.map_drop, h.queue]
  exact ⟨List.take_left, List.drop_left⟩

theorem Ordered.mem_pkts {s : Trace} (h : Ordered s) {x : Stamped} (hx : x ∈ s.queued) :
    x.target.pkt ∈ s.life.mshr.pkts := by
  rw [Lifetime.pkts_eq, ← h.queue, List.map_map]
  exact List.mem_map_of_mem hx

theorem stamps_concat {l : List Stamped} {x : Stamped}
    (h : l.map Stamped.order = List.range l.length) (hx : x.order = l.length) :
    (l ++ [x]).map Stamped.order = List.range (l ++ [x]).length := by
  rw [List.map_append, h, List.map_singleton, hx, List.length_append, List.length_singleton,
    List.range_succ]

/-- An operation that changes no list, and makes no target a locked read. -/
theorem Ordered.kept {s : Trace} {t : Life} (h : Ordered s) (hq : t.queue = s.life.queue)
    (hs : t.serviced = s.life.serviced)
    (hl : ∀ i ∈ s.life.mshr.pkts, (t.heap i).cmd = .lockedRMWReadReq →
      (s.life.heap i).cmd = .lockedRMWReadReq) :
    Ordered { s with life := t } := by
  refine ⟨h.queue.trans hq.symm, h.served.trans hs.symm, ?_, h.fifo, h.stamps⟩
  intro x hx hp hlock
  exact h.unlocked x hx hp (hl _ (h.mem_pkts hx) hlock)

theorem Ordered.allocated {s : Trace} {pkt : PacketId} {a : Bool} {r : Heap × Mshr}
    (h : Ordered s) (hr : s.life.mshr.allocateTarget s.life.heap pkt a = .ok r) :
    Ordered (s.follow { s.life with heap := r.1, mshr := r.2 } (.allocateTarget pkt a)) := by
  have hqueue := Lifetime.allocateTarget_queue hr
  obtain ⟨-, hlocks, -, -⟩ := Mshr.allocateTarget_spec hr
  refine ⟨?_, h.served, ?_, ?_, stamps_concat h.stamps rfl⟩
  · simp only [Trace.follow, List.map_append, List.map_singleton, h.queue, Life.queue]
    exact hqueue.symm
  · intro x hx hp hlock
    have hbefore := (hlocks x.target.pkt).1.mp hlock
    rcases List.mem_append.mp hx with hx | hx
    · exact h.unlocked x hx hp hbefore
    · obtain rfl := List.mem_singleton.mp hx
      simp only [Stamped.plain, Bool.and_eq_true, bne_iff_ne] at hp
      exact hp.2 hbefore
  · simp only [Trace.follow, List.filter_append, ← List.append_assoc, h.fifo]

theorem snoop_not_plain (pkt : PacketId) (a : Bool) (n : ℕ) (cmd : MemCmd) :
    (Stamped.mk ⟨pkt, .fromSnoop, a⟩ n cmd).plain = false := rfl

theorem Ordered.snooped {s : Trace} {p : Packet} {copy : PacketId} {r : Mshr.Snooped}
    (h : Ordered s) (hcopy : copy ∉ s.life.mshr.pkts)
    (hr : s.life.mshr.handleSnoop s.life.heap p copy = .ok r) :
    Ordered (s.follow { s.life with heap := r.heap, mshr := r.mshr } (.handleSnoop p copy)) := by
  obtain ⟨-, hheap, hdef, hlists⟩ := Mshr.handleSnoop_spec hr
  have hlock : ∀ i ∈ s.life.mshr.pkts, (r.heap i).cmd = .lockedRMWReadReq →
      (s.life.heap i).cmd = .lockedRMWReadReq := by
    intro i hi
    exact ((hheap i fun heq => hcopy (heq ▸ hi)).1.1).mp
  rcases hlists with ⟨-, hsame⟩ | ⟨-, -, hsaved⟩
  · have hlen : r.mshr.targets.list.length = s.life.mshr.targets.list.length := by rw [hsame]
    simp only [Trace.follow, hlen, if_true]
    refine h.kept ?_ rfl hlock
    simp only [Life.queue, hsame, hdef]
  · have hlen : r.mshr.targets.list.length ≠ s.life.mshr.targets.list.length := by
      rw [hsaved, List.length_append, List.length_singleton]
      omega
    simp only [Trace.follow, hlen, if_false]
    obtain ⟨htake, hdrop⟩ := h.split
    refine ⟨?_, h.served, ?_, ?_, stamps_concat h.stamps rfl⟩
    · simp only [List.map_append, List.map_cons, htake, hdrop, Life.queue, hsaved, hdef,
        List.append_assoc, List.cons_append, List.nil_append]
    · intro x hx hp hxlock
      have hmem : x ∈ s.queued := by
        rcases List.mem_append.mp hx with hx | hx
        · exact List.mem_of_mem_take hx
        · rcases List.mem_cons.mp hx with rfl | hx
          · rw [snoop_not_plain] at hp
            cases hp
          · exact List.mem_of_mem_drop hx
      exact h.unlocked x hmem hp (hlock _ (h.mem_pkts hmem) hxlock)
    · have hfilter : (s.queued.take s.life.mshr.targets.list.length).filter Stamped.plain ++
          (s.queued.drop s.life.mshr.targets.list.length).filter Stamped.plain =
          s.queued.filter Stamped.plain := by
        rw [← List.filter_append, List.take_append_drop]
      simp only [List.filter_append, List.filter_cons, snoop_not_plain, Bool.false_eq_true,
        if_false, List.filter_nil, List.append_nil, hfilter, h.fifo]

theorem mem_of_mem_cutLocked {h : Heap} {l : List Stamped} {x : Stamped}
    (hx : x ∈ (cutLocked h l).2) : x ∈ l := by
  induction l with
  | nil => exact hx
  | cons y ys ih =>
    rw [cutLocked] at hx
    split at hx
    · exact hx
    · exact List.mem_cons_of_mem y (ih hx)

theorem mem_of_mem_cut {h : Heap} {cmd : MemCmd} {l : List Stamped} {x : Stamped}
    (hx : x ∈ (cut h cmd l).2) : x ∈ l := by
  unfold cut at hx
  split at hx
  · cases l with
    | nil => exact hx
    | cons y ys =>
      dsimp only at hx
      split at hx
      · exact hx
      · exact List.mem_cons_of_mem y (List.mem_of_mem_filter hx)
  · exact mem_of_mem_cutLocked hx

theorem Ordered.taken {s : Trace} {cmd : MemCmd} {r : TargetList × Mshr} (h : Ordered s)
    (hr : s.life.mshr.extractServiceableTargets s.life.heap cmd = .ok r) :
    Ordered (s.follow { s.life with mshr := r.2, serviced := s.life.serviced ++ r.1.list }
      (.extractServiceableTargets cmd)) := by
  obtain ⟨-, hdef, hserv⟩ := Mshr.extractServiceableTargets_spec hr
  obtain ⟨htake, hdrop⟩ := h.split
  rw [← htake] at hserv
  obtain ⟨hready, hleft⟩ := serviceable_map hserv
  have htakes : Unlocked s.life.heap (s.queued.take s.life.mshr.targets.list.length) :=
    fun x hx => h.unlocked x (List.mem_of_mem_take hx)
  refine ⟨?_, ?_, ?_, ?_, h.stamps⟩
  · simp only [Trace.follow, List.map_append, hdrop, Life.queue, hdef, hleft]
  · simp only [Trace.follow, List.map_append, h.served, hready]
  · intro x hx
    rcases List.mem_append.mp hx with hx | hx
    · exact htakes x (mem_of_mem_cut hx)
    · exact h.unlocked x (List.mem_of_mem_drop hx)
  · have hfifo := h.fifo
    rw [← List.take_append_drop s.life.mshr.targets.list.length s.queued, List.filter_append,
      ← cut_plain cmd htakes] at hfifo
    simp only [Trace.follow, List.filter_append, List.append_assoc] at hfifo ⊢
    exact hfifo

theorem Ordered.step {s t : Trace} {op : Op} (h : Ordered s) (hs : step s op = some t) :
    Ordered t := by
  obtain ⟨u, hu, rfl⟩ := Option.map_eq_some_iff.mp hs
  obtain ⟨he, hr⟩ := Lifetime.step_cases hu
  cases op with
  | allocateTarget pkt a =>
    obtain ⟨r, hcall, hu⟩ := bind_ok_iff.mp hr
    cases hu
    exact h.allocated hcall
  | handleSnoop p copy =>
    obtain ⟨r, hcall, hu⟩ := bind_ok_iff.mp hr
    cases hu
    exact h.snooped he hcall
  | extractServiceableTargets cmd =>
    obtain ⟨r, hcall, hu⟩ := bind_ok_iff.mp hr
    cases hu
    exact h.taken hcall
  | replaceUpgrades deferred =>
    cases deferred with
    | true =>
      cases hr
      refine h.kept ?_ rfl fun i _ => (TargetList.sameLocks_replaceUpgrades _ _ i).1.mp
      simp only [Life.queue, TargetList.replaceUpgrades_list]
    | false =>
      cases hr
      refine h.kept ?_ rfl fun i _ => (TargetList.sameLocks_replaceUpgrades _ _ i).1.mp
      simp only [Life.queue, TargetList.replaceUpgrades_list]
  | promoteReadable =>
    obtain ⟨m, hcall, hu⟩ := bind_ok_iff.mp hr
    cases hu
    exact h.kept (Mshr.promoteReadable_spec hcall).lists rfl fun _ _ => id
  | promoteWritable =>
    obtain ⟨m, hcall, hu⟩ := bind_ok_iff.mp hr
    cases hu
    exact h.kept (Mshr.promoteWritable_spec hcall).lists rfl fun _ _ => id
  | promoteDeferredTargets =>
    cases hr
    exact h.kept (Lifetime.promoteDeferredTargets_queue _ _) rfl fun _ _ => id
  | answer h' =>
    cases hr
    refine h.kept rfl rfl fun i hi hlock => ?_
    rcases he i hi with heq | hresp
    · rw [← heq]
      exact hlock
    · rw [hlock] at hresp
      cases hresp
  | mark =>
    cases hr
    exact h.kept rfl rfl fun _ _ => id

/-- In every run of an allocated MSHR, the requests from the CPU side that were
not locked reads when they came are handed out for service in the order in which
they came, each once; those that were not handed out yet are what stands in
`targets` followed by `deferredTargets`. -/
theorem serviced_in_arrival_order (id blkAddr blkSize : ℕ) (h : Heap) (target : PacketId)
    (allocOnFill : Bool) (ops : List Op) (s : Trace)
    (hr : exec step (Trace.start id blkAddr blkSize h target allocOnFill) ops = some s) :
    s.extracted.filter Stamped.plain ++ s.queued.filter Stamped.plain =
      s.arrived.filter Stamped.plain ∧
    s.arrived.map Stamped.order = List.range s.arrived.length ∧
    s.extracted.map Stamped.target = s.life.serviced ∧
    s.queued.map Stamped.target =
      s.life.mshr.targets.list ++ s.life.mshr.deferredTargets.list := by
  have ho : Ordered s :=
    exec_invariant (fun _ _ _ hi hs => hi.step hs)
      (ordered_start id blkAddr blkSize h target allocOnFill) hr
  exact ⟨ho.fifo, ho.stamps, ho.served, ho.queue⟩

-- packet 1 is a locked read between two plain ones, and is answered in the end
def lockedHeap (answered : Bool) : Heap := fun i =>
  Packet.plain (if i = 1 then (if answered then .lockedRMWReadResp else .lockedRMWReadReq)
    else .readReq) false

def lockedOps : List Op :=
  [.allocateTarget 1 true, .allocateTarget 2 true, .extractServiceableTargets .readResp,
    .answer (lockedHeap true), .extractServiceableTargets .readResp]

theorem serviced_in_arrival_order_locked :
    ∃ s, exec step (Trace.start 0 0 1 (lockedHeap false) 0 true) lockedOps = some s ∧
      s.extracted.filter Stamped.plain ++ s.queued.filter Stamped.plain =
        s.arrived.filter Stamped.plain := by
  have hsome : (exec step (Trace.start 0 0 1 (lockedHeap false) 0 true) lockedOps).isSome = true :=
    by decide +kernel
  obtain ⟨s, hs⟩ := Option.isSome_iff_exists.mp hsome
  exact ⟨s, hs, (serviced_in_arrival_order 0 0 1 (lockedHeap false) 0 true lockedOps s hs).1⟩

end PnmCompaction.Cache.Arrival
