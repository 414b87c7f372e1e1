import PnmCompaction.Cache.Lifetime
import PnmCompaction.Cache.Service

/-!
# The summary flags of the target lists

`needsWritable` and `hasUpgrade` of a `TargetList` (mshr.cc 76-115, 163-232,
547-709) against the packets of its targets, some of which may have been turned
into responses in place. `promoteIf` moves targets without recomputing the flags
of the list that gets them; the response path makes up for it, since
`extractServiceableTargets` follows (base.cc 640-674).
-/

namespace PnmCompaction.Cache.Flags

open PnmCompaction.Lib.Checked PnmCompaction.Lib.Exec
open PnmCompaction.Cache.Lifetime (Life Op)

/-- What the flags of `l` must say because of the target `t`. -/
def Covered (h : Heap) (l : TargetList) (t : Target) : Prop :=
  t.source ≠ .fromSnoop → (h t.pkt).isRequest = true →
    ((h t.pkt).cmd.needsWritable = true → l.needsWritable = true) ∧
    ((h t.pkt).cmd.isUpgrade = true ∨ (h t.pkt).cmd = .storeCondReq → l.hasUpgrade = true)

def FlagsCover (h : Heap) (l : TargetList) : Prop := ∀ t ∈ l.list, Covered h l t

structure Grows (l l' : TargetList) : Prop where
  needsWritable : l.needsWritable = true → l'.needsWritable = true
  hasUpgrade : l.hasUpgrade = true → l'.hasUpgrade = true

theorem Grows.refl (l : TargetList) : Grows l l := ⟨id, id⟩

theorem Grows.trans {l l' l'' : TargetList} (a : Grows l l') (b : Grows l' l'') : Grows l l'' :=
  ⟨b.needsWritable ∘ a.needsWritable, b.hasUpgrade ∘ a.hasUpgrade⟩

theorem Covered.mono {h : Heap} {l l' : TargetList} {t : Target} (hc : Covered h l t)
    (hg : Grows l l') : Covered h l' t := by
  intro hs hreq
  obtain ⟨hw, hu⟩ := hc hs hreq
  exact ⟨hg.needsWritable ∘ hw, hg.hasUpgrade ∘ hu⟩

/-! ### Setting the flags -/

theorem updateWriteFlags_summary (l : TargetList) (p : Packet) :
    (l.updateWriteFlags p).needsWritable = l.needsWritable ∧
      (l.updateWriteFlags p).hasUpgrade = l.hasUpgrade := by
  unfold TargetList.updateWriteFlags
  split
  · exact ⟨rfl, rfl⟩
  · split
    · split <;> exact ⟨rfl, rfl⟩
    · exact ⟨rfl, rfl⟩

theorem updateFlags_snoop (l : TargetList) (p : Packet) (a : Bool) :
    l.updateFlags p .fromSnoop a = l := by
  unfold TargetList.updateFlags
  exact if_pos rfl

theorem updateFlags_summary (l : TargetList) (p : Packet) {source : Source} (a : Bool)
    (hs : source ≠ .fromSnoop) :
    (l.updateFlags p source a).needsWritable =
        (l.needsWritable || (p.isRequest && p.cmd.needsWritable)) ∧
      (l.updateFlags p source a).hasUpgrade =
        (l.hasUpgrade || (p.cmd.isUpgrade || p.cmd == .storeCondReq)) := by
  unfold TargetList.updateFlags
  rw [if_neg hs]
  dsimp only
  split
  · exact ⟨rfl, rfl⟩
  · exact updateWriteFlags_summary _ p

theorem updateFlags_grows (l : TargetList) (p : Packet) (source : Source) (a : Bool) :
    Grows l (l.updateFlags p source a) := by
  by_cases hs : source = .fromSnoop
  · rw [hs, updateFlags_snoop]
    exact .refl l
  · obtain ⟨hw, hu⟩ := updateFlags_summary l p a hs
    constructor
    · intro h
      rw [hw, h, Bool.true_or]
    · intro h
      rw [hu, h, Bool.true_or]

theorem updateFlags_covered (h : Heap) (l : TargetList) (t : Target) :
    Covered h (l.updateFlags (h t.pkt) t.source t.allocOnFill) t := by
  intro hs hreq
  obtain ⟨hw, hu⟩ := updateFlags_summary l (h t.pkt) t.allocOnFill hs
  rw [hw, hu, hreq]
  constructor
  · intro h
    rw [h, Bool.and_self, Bool.or_true]
  · rintro (h | h)
    · rw [h, Bool.true_or, Bool.or_true]
    · rw [h, beq_self_eq_true, Bool.or_true, Bool.or_true]

theorem populate_fold (h : Heap) (ts : List Target) (acc : TargetList) :
    Grows acc (ts.foldl (fun acc t => acc.updateFlags (h t.pkt) t.source t.allocOnFill) acc) ∧
      ∀ t ∈ ts, Covered h
        (ts.foldl (fun acc t => acc.updateFlags (h t.pkt) t.source t.allocOnFill) acc) t := by
  induction ts generalizing acc with
  | nil => exact ⟨.refl acc, fun t ht => absurd ht List.not_mem_nil⟩
  | cons t ts ih =>
    obtain ⟨hgrows, hcovered⟩ := ih (acc.updateFlags (h t.pkt) t.source t.allocOnFill)
    refine ⟨(updateFlags_grows acc _ _ _).trans hgrows, ?_⟩
    intro u hu
    rcases List.mem_cons.mp hu with rfl | hu
    · exact (updateFlags_covered h acc u).mono hgrows
    · exact hcovered u hu

/-- Recomputed flags are right, whatever they were. -/
theorem populateFlags_cover (h : Heap) (l : TargetList) : FlagsCover h (l.populateFlags h) := by
  intro t ht
  rw [TargetList.populateFlags_list] at ht
  exact (populate_fold h l.list l.resetFlags).2 t ht

theorem add_grows (h : Heap) (l : TargetList) (t : Target) : Grows l (l.add h t) := by
  have hg := updateFlags_grows l (h t.pkt) t.source t.allocOnFill
  exact ⟨hg.needsWritable, hg.hasUpgrade⟩

theorem FlagsCover.add {h : Heap} {l : TargetList} (hc : FlagsCover h l) (t : Target) :
    FlagsCover h (l.add h t) := by
  intro u hu
  rw [TargetList.add_list] at hu
  rcases List.mem_append.mp hu with hu | hu
  · exact (hc u hu).mono (add_grows h l t)
  · obtain rfl := List.mem_singleton.mp hu
    exact updateFlags_covered h l u

/-! ### Packets that change in place -/

/-- `q` asks for no more than `p` did, as far as it is a request at all. -/
def Eased (p q : Packet) : Prop :=
  q.isRequest = true → p.isRequest = true ∧
    (q.cmd.needsWritable = true → p.cmd.needsWritable = true) ∧
    (q.cmd.isUpgrade = true ∨ q.cmd = .storeCondReq →
      p.cmd.isUpgrade = true ∨ p.cmd = .storeCondReq)

theorem Eased.refl (p : Packet) : Eased p p := fun h => ⟨h, id, id⟩

theorem Eased.trans {p q r : Packet} (a : Eased p q) (b : Eased q r) : Eased p r := by
  intro hr
  obtain ⟨hq, hw, hu⟩ := b hr
  obtain ⟨hp, hw', hu'⟩ := a hq
  exact ⟨hp, hw' ∘ hw, hu' ∘ hu⟩

theorem FlagsCover.eased {h h' : Heap} {l : TargetList} (hc : FlagsCover h l)
    (he : ∀ t ∈ l.list, Eased (h t.pkt) (h' t.pkt)) : FlagsCover h' l := by
  intro t ht hs hreq
  obtain ⟨hreq', hw, hu⟩ := he t ht hreq
  obtain ⟨hw', hu'⟩ := hc t ht hs hreq'
  exact ⟨hw' ∘ hw, hu' ∘ hu⟩

theorem eased_of_response {p q : Packet} (h : q.cmd.isResponse = true) : Eased p q := by
  intro hreq
  -- no command is both
  have hboth : ∀ cmd : MemCmd, cmd.isResponse = true → cmd.isRequest = false := by
    intro cmd
    cases cmd <;> decide
  rw [Packet.isRequest, hboth q.cmd h] at hreq
  cases hreq

theorem replaceUpgrade_cmd (p : Packet) :
    (p.cmd = .upgradeReq ∧ (replaceUpgrade p).cmd = .readExReq) ∨
    (p.cmd = .scUpgradeReq ∧ (replaceUpgrade p).cmd = .scUpgradeFailReq) ∨
    (p.cmd = .storeCondReq ∧ (replaceUpgrade p).cmd = .storeCondFailReq) ∨
    ((replaceUpgrade p).cmd = p.cmd ∧ p.cmd ≠ .upgradeReq ∧ p.cmd ≠ .scUpgradeReq ∧
      p.cmd ≠ .storeCondReq) := by
  unfold replaceUpgrade
  dsimp only
  split
  · next hp => exact .inl ⟨hp, rfl⟩
  · next hp => exact .inr (.inl ⟨hp, rfl⟩)
  · next hp => exact .inr (.inr (.inl ⟨hp, rfl⟩))
  · next h1 h2 h3 => exact .inr (.inr (.inr ⟨rfl, h1, h2, h3⟩))

theorem upgrade_cases {cmd : MemCmd} (hreq : cmd.isRequest = true) (h : cmd.isUpgrade = true) :
    cmd = .upgradeReq ∨ cmd = .scUpgradeReq := by
  revert hreq h
  cases cmd <;> decide

theorem eased_replaceUpgrade (p : Packet) : Eased p (replaceUpgrade p) := by
  intro _
  rcases replaceUpgrade_cmd p with ⟨hp, hq⟩ | ⟨hp, hq⟩ | ⟨hp, hq⟩ | ⟨hq, -⟩
  · simp only [Packet.isRequest, hp, hq]
    decide
  · simp only [Packet.isRequest, hp, hq]
    decide
  · simp only [Packet.isRequest, hp, hq]
    decide
  · simp only [Packet.isRequest, hq] at *
    exact ⟨by assumption, id, id⟩

/-- After `replaceUpgrade` a request is no upgrade any more. -/
def Replaced (q : Packet) : Prop :=
  q.isRequest = true → ¬(q.cmd.isUpgrade = true ∨ q.cmd = .storeCondReq)

theorem replaced_replaceUpgrade (p : Packet) : Replaced (replaceUpgrade p) := by
  intro hreq hup
  rcases replaceUpgrade_cmd p with ⟨-, hq⟩ | ⟨-, hq⟩ | ⟨-, hq⟩ | ⟨hq, h1, h2, h3⟩
  · rw [hq] at hup
    revert hup
    decide
  · rw [hq] at hup
    revert hup
    decide
  · rw [hq] at hup
    revert hup
    decide
  · rw [Packet.isRequest, hq] at hreq
    rw [hq] at hup
    rcases hup with hup | hup
    · rcases upgrade_cases hreq hup with heq | heq
      · exact h1 heq
      · exact h2 heq
    · exact h3 hup

theorem Replaced.eased {p q : Packet} (hp : Replaced p) (he : Eased p q) : Replaced q := by
  intro hreq hup
  obtain ⟨hreq', -, hup'⟩ := he hreq
  exact hp hreq' (hup' hup)

theorem eased_update (h : Heap) (i : PacketId) :
    ∀ j, Eased (h j) (Function.update h i (replaceUpgrade (h i)) j) := by
  intro j
  by_cases hj : j = i
  · rw [hj, Function.update_self]
    exact eased_replaceUpgrade (h i)
  · rw [Function.update_of_ne hj]
    exact .refl _

theorem replace_fold (ts : List Target) (h : Heap) :
    (∀ j, Eased (h j)
      (ts.foldl (fun h t => Function.update h t.pkt (replaceUpgrade (h t.pkt))) h j)) ∧
    ∀ t ∈ ts, Replaced
      (ts.foldl (fun h t => Function.update h t.pkt (replaceUpgrade (h t.pkt))) h t.pkt) := by
  induction ts generalizing h with
  | nil => exact ⟨fun j => .refl _, fun t ht => absurd ht List.not_mem_nil⟩
  | cons t ts ih =>
    obtain ⟨heased, hreplaced⟩ := ih (Function.update h t.pkt (replaceUpgrade (h t.pkt)))
    refine ⟨fun j => (eased_update h t.pkt j).trans (heased j), ?_⟩
    intro u hu
    rcases List.mem_cons.mp hu with rfl | hu
    · refine Replaced.eased ?_ (heased u.pkt)
      rw [Function.update_self]
      exact replaced_replaceUpgrade _
    · exact hreplaced u hu

theorem eased_replaceUpgrades (l : TargetList) (h : Heap) (j : PacketId) :
    Eased (h j) ((l.replaceUpgrades h).1 j) := by
  unfold TargetList.replaceUpgrades
  split
  · exact (replace_fold l.list h).1 j
  · exact .refl _

/-- The flag that `replaceUpgrades` clears is not needed any more. -/
theorem FlagsCover.replaceUpgrades {h : Heap} {l : TargetList} (hc : FlagsCover h l) :
    FlagsCover (l.replaceUpgrades h).1 (l.replaceUpgrades h).2 := by
  unfold TargetList.replaceUpgrades
  split
  · obtain ⟨heased, hreplaced⟩ := replace_fold l.list h
    have hc' := hc.eased fun t _ => heased t.pkt
    intro t ht hs hreq
    exact ⟨(hc' t ht hs hreq).1, fun hup => absurd hup (hreplaced t ht hreq)⟩
  · exact hc

/-! ### The operations -/

theorem allocateTarget_cover {m m' : Mshr} {h h' : Heap} {pkt : PacketId} {a : Bool}
    (ht : FlagsCover h m.targets) (hd : FlagsCover h m.deferredTargets)
    (hr : m.allocateTarget h pkt a = .ok (h', m')) :
    FlagsCover h' m'.targets ∧ FlagsCover h' m'.deferredTargets := by
  simp only [Mshr.allocateTarget, bind_ok_iff, ensure_ok_iff, exists_const] at hr
  obtain ⟨-, -, -, d, -, hr⟩ := hr
  cases d with
  | false =>
    simp only [Bool.false_eq_true, if_false, pure_ok_iff, Prod.mk.injEq] at hr
    obtain ⟨rfl, rfl⟩ := hr
    exact ⟨ht.add _, hd⟩
  | true =>
    simp only [if_true, pure_ok_iff, Prod.mk.injEq] at hr
    obtain ⟨hheap, rfl⟩ := hr
    rw [hheap]
    have heased : ∀ j, Eased (h j) (h' j) := by
      intro j
      rw [← hheap]
      split
      · exact eased_update h pkt j
      · exact .refl _
    exact ⟨ht.eased fun t _ => heased t.pkt, (hd.eased fun t _ => heased t.pkt).add _⟩

/-- A packet that is no target of the list changes. -/
theorem FlagsCover.fresh {h h' : Heap} {l : TargetList} {i : PacketId} (hc : FlagsCover h l)
    (hi : i ∉ l.list.map Target.pkt) (hh : ∀ j, j ≠ i → h' j = h j) : FlagsCover h' l := by
  refine hc.eased fun t ht => ?_
  rw [hh t.pkt fun heq => hi (heq ▸ List.mem_map_of_mem ht)]
  exact .refl _

theorem notMem_lists {m : Mshr} {i : PacketId} (hi : i ∉ m.pkts) :
    i ∉ m.targets.list.map Target.pkt ∧ i ∉ m.deferredTargets.list.map Target.pkt := by
  rw [Mshr.pkts, List.map_append, List.mem_append, not_or] at hi
  exact hi

theorem deferSnoop_cover {m m' : Mshr} {h h' : Heap} {p q : Packet} {copy : PacketId} {w : Bool}
    (ht : FlagsCover h m.targets) (hd : FlagsCover h m.deferredTargets) (hcopy : copy ∉ m.pkts)
    (hr : m.deferSnoop h p copy w = .ok (q, h', m')) :
    FlagsCover h' m'.targets ∧ FlagsCover h' m'.deferredTargets := by
  obtain ⟨hnt, hnd⟩ := notMem_lists hcopy
  obtain ⟨-, hheap, -, hdef⟩ := Mshr.deferSnoop_spec hr
  simp only [Mshr.deferSnoop, bind_ok_iff, pure_ok_iff, Prod.mk.injEq] at hr
  obtain ⟨-, -, -, rfl, rfl⟩ := hr
  refine ⟨(ht.fresh hnt hheap).add _, ?_⟩
  rw [hdef]
  exact hd.fresh hnd hheap

theorem handleSnoop_cover {m : Mshr} {h : Heap} {p : Packet} {copy : PacketId} {r : Mshr.Snooped}
    (ht : FlagsCover h m.targets) (hd : FlagsCover h m.deferredTargets) (hcopy : copy ∉ m.pkts)
    (hr : m.handleSnoop h p copy = .ok r) :
    FlagsCover r.heap r.mshr.targets ∧ FlagsCover r.heap r.mshr.deferredTargets := by
  simp only [Mshr.handleSnoop, bind_ok_iff, ensure_ok_iff, exists_const] at hr
  obtain ⟨w, _, _, hr⟩ := hr
  split at hr
  · split at hr
    · cases hr
      -- both lists are replaced, one after the other, in one heap
      have hd1 := hd.eased fun t _ => eased_replaceUpgrades m.targets h t.pkt
      exact ⟨ht.replaceUpgrades.eased fun t _ => eased_replaceUpgrades m.deferredTargets _ t.pkt,
        hd1.replaceUpgrades⟩
    · cases hr
      exact ⟨ht, hd⟩
  · revert hr
    generalize heq : (if (w || p.req.isCacheInvalidate) = true then
      m.deferredTargets.replaceUpgrades h else (h, m.deferredTargets)) = hd'
    have hcover : FlagsCover hd'.1 m.targets ∧ FlagsCover hd'.1 hd'.2 := by
      rw [← heq]
      split
      · exact ⟨ht.eased fun t _ => eased_replaceUpgrades m.deferredTargets h t.pkt,
          hd.replaceUpgrades⟩
      · exact ⟨ht, hd⟩
    obtain ⟨-, hlist⟩ := Mshr.takeAway_spec heq
    have hcopy' : copy ∉ { m with deferredTargets := hd'.2 }.pkts := by
      rw [Mshr.pkts, hlist]
      exact hcopy
    intro hr
    simp only [bind_ok_iff] at hr
    obtain ⟨first, _, hr⟩ := hr
    split at hr
    · cases hr
      exact hcover
    · simp only [bind_ok_iff] at hr
      obtain ⟨⟨q, h', m'⟩, hs, hr⟩ := hr
      have hsaved : FlagsCover h' m'.targets ∧ FlagsCover h' m'.deferredTargets := by
        split at hs
        · exact deferSnoop_cover (m := { m with deferredTargets := hd'.2 }) hcover.1 hcover.2
            hcopy' hs
        · cases hs
          exact hcover
      split at hr <;> cases hr <;> exact hsaved

/-- The deferred list is recomputed whenever something leaves it. -/
theorem promoteIf_cover {m m' : Mshr} {h : Heap} {pred : Target → Except Assertion Bool}
    (hr : m.promoteIf h pred = .ok m') : FlagsCover h m'.deferredTargets := by
  simp only [Mshr.promoteIf, bind_ok_iff, ensure_ok_iff, exists_const, pure_ok_iff] at hr
  obtain ⟨_, r, _, rfl⟩ := hr
  exact populateFlags_cover h _

theorem promoteReadable_cover {m m' : Mshr} {h : Heap} (hd : FlagsCover h m.deferredTargets)
    (hr : m.promoteReadable h = .ok m') : FlagsCover h m'.deferredTargets := by
  unfold Mshr.promoteReadable at hr
  split at hr
  · cases hr
    exact hd
  · simp only [bind_ok_iff] at hr
    obtain ⟨b, _, hr⟩ := hr
    cases b with
    | true =>
      cases hr
      exact hd
    | false => exact promoteIf_cover hr

theorem promoteWritable_cover {m m' : Mshr} {h : Heap} (hd : FlagsCover h m.deferredTargets)
    (hr : m.promoteWritable h = .ok m') : FlagsCover h m'.deferredTargets := by
  unfold Mshr.promoteWritable at hr
  split at hr
  · cases hr
    exact hd
  · split at hr
    · simp only [bind_ok_iff] at hr
      obtain ⟨inv, _, down, _, hr⟩ := hr
      split at hr
      · cases hr
        exact hd
      · simp only [bind_ok_iff, ensure_ok_iff, exists_const] at hr
        exact promoteIf_cover hr.2
    · cases hr
      exact hd

theorem extractServiceableTargets_cover {m : Mshr} {h : Heap} {cmd : MemCmd}
    {r : TargetList × Mshr} (hd : FlagsCover h m.deferredTargets)
    (hr : m.extractServiceableTargets h cmd = .ok r) :
    FlagsCover h r.2.targets ∧ FlagsCover h r.2.deferredTargets := by
  simp only [Mshr.extractServiceableTargets, bind_ok_iff, pure_ok_iff] at hr
  obtain ⟨l, _, rfl⟩ := hr
  exact ⟨populateFlags_cover h _, hd⟩

theorem promoteDeferredTargets_cover {m : Mshr} {h : Heap} (ht : FlagsCover h m.targets)
    (hd : FlagsCover h m.deferredTargets) :
    FlagsCover h ((m.promoteDeferredTargets h).getD m).targets ∧
      FlagsCover h ((m.promoteDeferredTargets h).getD m).deferredTargets := by
  unfold Mshr.promoteDeferredTargets
  split
  · exact ⟨ht, hd⟩
  · exact ⟨populateFlags_cover h _, populateFlags_cover h _⟩

/-! ### No assertion of `needsWritable` fails -/

/-- `updateFlags` as the source writes it, with the assertion inside
`pkt->needsWritable()`. -/
def updateFlagsAsserting (l : TargetList) (p : Packet) (source : Source) (allocOnFill : Bool) :
    Except Assertion TargetList :=
  if source = .fromSnoop then pure l
  else do
    let w ← (if p.isRequest then p.needsWritable else pure false)
    let l := { l with
      needsWritable := l.needsWritable || w
      hasUpgrade := l.hasUpgrade || (p.cmd.isUpgrade || p.cmd == .storeCondReq)
      allocOnFill := l.allocOnFill || allocOnFill }
    if source = .fromPrefetcher then pure l
    else pure ({ l with hasFromCache := l.hasFromCache || p.cmd.fromCache }.updateWriteFlags p)

theorem needsWritable_of_request {p : Packet} (h : p.isRequest = true) :
    p.needsWritable = .ok p.cmd.needsWritable :=
  bind_ok_iff.mpr ⟨⟨⟩, ensure_ok_iff.mpr h, rfl⟩

/-- The guard keeps the assertion from failing on any packet, so the flags can be
computed without it. -/
theorem updateFlagsAsserting_eq (l : TargetList) (p : Packet) (source : Source) (a : Bool) :
    updateFlagsAsserting l p source a = .ok (l.updateFlags p source a) := by
  unfold updateFlagsAsserting TargetList.updateFlags
  by_cases hs : source = .fromSnoop
  · rw [if_pos hs, if_pos hs]
    rfl
  rw [if_neg hs, if_neg hs]
  refine bind_ok_iff.mpr ⟨p.isRequest && p.cmd.needsWritable, ?_, ?_⟩
  · cases hreq : p.isRequest with
    | true =>
      rw [if_pos rfl, needsWritable_of_request hreq, Bool.true_and]
    | false =>
      rw [if_neg Bool.false_ne_true, Bool.false_and]
      rfl
  · dsimp only
    split <;> rfl

/-- A new target, and a snooped packet, is a request. -/
def AddsRequest (s : Life) : Op → Prop
  | .allocateTarget pkt _ => (s.heap pkt).isRequest = true
  | .handleSnoop p _ => p.isRequest = true
  | _ => True

theorem needsWritable_ne {p : Packet} (h : p.isRequest = true) :
    p.needsWritable ≠ .error .needsWritableOfResponse := by
  rw [needsWritable_of_request h]
  exact pure_ne_error

theorem front_ne (m : Mshr) : m.front ≠ .error .needsWritableOfResponse := by
  unfold Mshr.front
  split
  · decide
  · exact pure_ne_error

theorem hasPost_ne (m : Mshr) :
    m.hasPostInvalidate ≠ .error .needsWritableOfResponse ∧
      m.hasPostDowngrade ≠ .error .needsWritableOfResponse :=
  ⟨ensure_bind_ne_error (by decide) pure_ne_error,
    ensure_bind_ne_error (by decide) pure_ne_error⟩

theorem setFlag_ne (p : Packet) :
    p.setCacheResponding ≠ .error .needsWritableOfResponse ∧
      p.setResponderHadWritable ≠ .error .needsWritableOfResponse ∧
      p.setSatisfied ≠ .error .needsWritableOfResponse := by
  refine ⟨?_, ?_, ?_⟩
  · exact ensure_bind_ne_error (by decide) (ensure_bind_ne_error (by decide) pure_ne_error)
  · exact ensure_bind_ne_error (by decide) (ensure_bind_ne_error (by decide) pure_ne_error)
  · exact ensure_bind_ne_error (by decide) (ensure_bind_ne_error (by decide) pure_ne_error)

theorem allocateTarget_ne (m : Mshr) (h : Heap) {pkt : PacketId} (a : Bool)
    (hreq : (h pkt).isRequest = true) :
    m.allocateTarget h pkt a ≠ .error .needsWritableOfResponse := by
  refine ensure_bind_ne_error (by decide) ?_
  refine bind_ne_error (front_ne m) fun first _ => ?_
  refine bind_ne_error ?_ fun d _ => ?_
  · unfold Mshr.defers
    split
    · exact pure_ne_error
    · split
      · split
        · exact pure_ne_error
        · exact bind_ne_error (needsWritable_ne hreq) fun _ _ => pure_ne_error
      · exact pure_ne_error
  · split <;> exact pure_ne_error

theorem deferSnoop_ne (m : Mshr) (h : Heap) (p : Packet) (copy : PacketId) (w : Bool) :
    m.deferSnoop h p copy w ≠ .error .needsWritableOfResponse := by
  refine bind_ne_error ?_ fun _ _ => pure_ne_error
  split
  · exact bind_ne_error (setFlag_ne p).1 fun q _ => (setFlag_ne q).2.1
  · split
    · exact (setFlag_ne p).2.2
    · exact pure_ne_error

theorem handleSnoop_ne (m : Mshr) (h : Heap) {p : Packet} (copy : PacketId)
    (hreq : p.isRequest = true) :
    m.handleSnoop h p copy ≠ .error .needsWritableOfResponse := by
  refine bind_ne_error (needsWritable_ne hreq) fun w _ => ?_
  refine ensure_bind_ne_error (by decide) ?_
  dsimp only
  split
  · split <;> exact pure_ne_error
  · generalize (if (w || p.req.isCacheInvalidate) = true then
      m.deferredTargets.replaceUpgrades h else (h, m.deferredTargets)) = hd
    refine bind_ne_error (front_ne _) fun first _ => ?_
    split
    · exact pure_ne_error
    · refine bind_ne_error ?_ fun r _ => ?_
      · split
        · exact deferSnoop_ne _ _ _ _ _
        · exact pure_ne_error
      · split <;> exact pure_ne_error

theorem spanChecked_ne {pred : Target → Except Assertion Bool} {l : List Target}
    (hp : ∀ t, pred t ≠ .error .needsWritableOfResponse) :
    Mshr.spanChecked pred l ≠ .error .needsWritableOfResponse := by
  induction l with
  | nil => exact pure_ne_error
  | cons t ts ih =>
    refine bind_ne_error (hp t) fun b _ => ?_
    split
    · exact bind_ne_error ih fun _ _ => pure_ne_error
    · exact pure_ne_error

theorem promoteIf_ne (m : Mshr) (h : Heap) {pred : Target → Except Assertion Bool}
    (hp : ∀ t, pred t ≠ .error .needsWritableOfResponse) :
    m.promoteIf h pred ≠ .error .needsWritableOfResponse := by
  refine ensure_bind_ne_error (by decide) ?_
  exact bind_ne_error (spanChecked_ne hp) fun _ _ => pure_ne_error

/-- An answered target is promoted before its packet is asked. -/
theorem readablePred_ne (h : Heap) (t : Target) :
    Mshr.readablePred h t ≠ .error .needsWritableOfResponse := by
  refine ensure_bind_ne_error (by decide) ?_
  split
  · next hreq =>
    split
    · exact pure_ne_error
    · exact bind_ne_error (needsWritable_ne hreq) fun _ _ => pure_ne_error
  · exact pure_ne_error

theorem promoteReadable_ne (m : Mshr) (h : Heap) :
    m.promoteReadable h ≠ .error .needsWritableOfResponse := by
  unfold Mshr.promoteReadable
  split
  · exact pure_ne_error
  · refine bind_ne_error (hasPost_ne m).1 fun b _ => ?_
    split
    · exact pure_ne_error
    · exact promoteIf_ne m h (readablePred_ne h)

theorem promoteWritable_ne (m : Mshr) (h : Heap) :
    m.promoteWritable h ≠ .error .needsWritableOfResponse := by
  unfold Mshr.promoteWritable
  split
  · exact pure_ne_error
  · split
    · refine bind_ne_error (hasPost_ne m).1 fun inv _ => ?_
      refine bind_ne_error (hasPost_ne m).2 fun down _ => ?_
      split
      · exact pure_ne_error
      · refine ensure_bind_ne_error (by decide) ?_
        refine promoteIf_ne _ h fun t => ?_
        exact ensure_bind_ne_error (by decide) pure_ne_error
    · exact pure_ne_error

theorem extractServiceableTargets_ne (m : Mshr) (h : Heap) (cmd : MemCmd) :
    m.extractServiceableTargets h cmd ≠ .error .needsWritableOfResponse := by
  refine bind_ne_error ?_ fun _ _ => pure_ne_error
  unfold Mshr.serviceable
  split
  · split
    · decide
    · refine ensure_bind_ne_error (by decide) ?_
      split
      · exact pure_ne_error
      · exact ensure_bind_ne_error (by decide) pure_ne_error
  · exact pure_ne_error

theorem run_ne {s : Life} {op : Op} (h : AddsRequest s op) :
    Lifetime.run s op ≠ .error .needsWritableOfResponse := by
  cases op with
  | allocateTarget pkt a =>
    exact bind_ne_error (allocateTarget_ne s.mshr s.heap a h) fun _ _ => pure_ne_error
  | handleSnoop p copy =>
    exact bind_ne_error (handleSnoop_ne s.mshr s.heap copy h) fun _ _ => pure_ne_error
  | replaceUpgrades deferred => cases deferred <;> exact pure_ne_error
  | promoteReadable => exact bind_ne_error (promoteReadable_ne _ _) fun _ _ => pure_ne_error
  | promoteWritable => exact bind_ne_error (promoteWritable_ne _ _) fun _ _ => pure_ne_error
  | promoteDeferredTargets => exact pure_ne_error
  | extractServiceableTargets cmd =>
    exact bind_ne_error (extractServiceableTargets_ne _ _ cmd) fun _ _ => pure_ne_error
  | answer h' => exact pure_ne_error
  | mark => exact pure_ne_error

/-! ### Steps of the cache -/

/-- The cache calls the operations one at a time, but for the path of a response:
there the promotions that the block allows come right before the extraction. -/
inductive CacheStep
  | alone (op : Op)
  | response (readable writable : Bool) (cmd : MemCmd)

def CacheStep.ops : CacheStep → List Op
  | .alone op => [op]
  | .response readable writable cmd =>
    (if readable then [.promoteReadable] else []) ++
      ((if writable then [.promoteWritable] else []) ++ [.extractServiceableTargets cmd])

/-- The operations that only the path of a response uses. -/
def onResponse : Op → Bool
  | .promoteReadable | .promoteWritable | .extractServiceableTargets _ => true
  | _ => false

def Admissible (s : Life) : CacheStep → Prop
  | .alone op => onResponse op = false ∧ AddsRequest s op
  | .response readable writable _ =>
    s.mshr.hasLockedRMWReadTarget s.heap = true → readable = false ∧ writable = false

instance (s : Life) : (op : Op) → Decidable (AddsRequest s op)
  | .allocateTarget pkt _ => inferInstanceAs (Decidable ((s.heap pkt).isRequest = true))
  | .handleSnoop p _ => inferInstanceAs (Decidable (p.isRequest = true))
  | .replaceUpgrades _ | .promoteReadable | .promoteWritable | .promoteDeferredTargets
  | .extractServiceableTargets _ | .answer _ | .mark _ _ _ _ _ _ _ => .isTrue trivial

instance (s : Life) : (c : CacheStep) → Decidable (Admissible s c)
  | .alone op => inferInstanceAs (Decidable (onResponse op = false ∧ AddsRequest s op))
  | .response readable writable _ => inferInstanceAs
      (Decidable (s.mshr.hasLockedRMWReadTarget s.heap = true →
        readable = false ∧ writable = false))

def step (s : Life) (c : CacheStep) : Option Life :=
  if Admissible s c then exec Lifetime.step s c.ops else none

structure Cover (s : Life) : Prop where
  targets : FlagsCover s.heap s.mshr.targets
  deferred : FlagsCover s.heap s.mshr.deferredTargets

theorem cover_start (id blkAddr blkSize : ℕ) (h : Heap) (target : PacketId) (a : Bool) :
    Cover (Lifetime.start id blkAddr blkSize h target a) := by
  have hempty : FlagsCover h (TargetList.init blkSize) :=
    fun t ht => absurd ht List.not_mem_nil
  exact ⟨hempty.add _, hempty⟩

theorem Cover.alone {s t : Life} {op : Op} (h : Cover s) (hop : onResponse op = false)
    (hs : Lifetime.step s op = some t) : Cover t := by
  obtain ⟨he, hr⟩ := Lifetime.step_cases hs
  cases op with
  | allocateTarget pkt a =>
    obtain ⟨r, hcall, ht⟩ := bind_ok_iff.mp hr
    cases ht
    obtain ⟨h1, h2⟩ := allocateTarget_cover h.targets h.deferred hcall
    exact ⟨h1, h2⟩
  | handleSnoop p copy =>
    obtain ⟨r, hcall, ht⟩ := bind_ok_iff.mp hr
    cases ht
    obtain ⟨h1, h2⟩ := handleSnoop_cover h.targets h.deferred he hcall
    exact ⟨h1, h2⟩
  | replaceUpgrades deferred =>
    cases deferred with
    | true =>
      cases hr
      exact ⟨h.targets.eased fun t _ => eased_replaceUpgrades _ _ t.pkt,
        h.deferred.replaceUpgrades⟩
    | false =>
      cases hr
      exact ⟨h.targets.replaceUpgrades,
        h.deferred.eased fun t _ => eased_replaceUpgrades _ _ t.pkt⟩
  | promoteDeferredTargets =>
    cases hr
    obtain ⟨h1, h2⟩ := promoteDeferredTargets_cover h.targets h.deferred
    exact ⟨h1, h2⟩
  | answer h' =>
    cases hr
    have heased : ∀ i ∈ s.mshr.pkts, Eased (s.heap i) (h' i) := by
      intro i hi
      rcases he i hi with heq | hresp
      · rw [heq]
        exact .refl _
      · exact eased_of_response hresp
    refine ⟨h.targets.eased fun t ht => heased _ ?_, h.deferred.eased fun t ht => heased _ ?_⟩
    · exact List.mem_map_of_mem (List.mem_append_left _ ht)
    · exact List.mem_map_of_mem (List.mem_append_right _ ht)
  | mark =>
    cases hr
    exact ⟨h.targets, h.deferred⟩
  | promoteReadable => cases hop
  | promoteWritable => cases hop
  | extractServiceableTargets cmd => cases hop

-- an optional promotion: only the deferred list is sure to have the right flags after it
theorem deferred_promoted {s t : Life} {op : Op} {b : Bool}
    (hop : op = .promoteReadable ∨ op = .promoteWritable)
    (hd : FlagsCover s.heap s.mshr.deferredTargets)
    (hs : exec Lifetime.step s (if b then [op] else []) = some t) :
    FlagsCover t.heap t.mshr.deferredTargets := by
  cases b with
  | false =>
    obtain rfl := Option.some.inj hs
    exact hd
  | true =>
    obtain ⟨u, hu, hnil⟩ := exec_cons.mp hs
    obtain rfl := Option.some.inj hnil
    obtain ⟨-, hr⟩ := Lifetime.step_cases hu
    rcases hop with rfl | rfl
    · obtain ⟨m, hcall, hm⟩ := bind_ok_iff.mp hr
      cases hm
      have hc := promoteReadable_cover hd hcall
      exact hc
    · obtain ⟨m, hcall, hm⟩ := bind_ok_iff.mp hr
      cases hm
      have hc := promoteWritable_cover hd hcall
      exact hc

theorem Cover.response {s t : Life} {readable writable : Bool} {cmd : MemCmd} (h : Cover s)
    (hs : exec Lifetime.step s (CacheStep.response readable writable cmd).ops = some t) :
    Cover t := by
  obtain ⟨u, hu, hs⟩ := exec_append.mp hs
  obtain ⟨v, hv, hs⟩ := exec_append.mp hs
  have hdu := deferred_promoted (.inl rfl) h.deferred hu
  have hdv := deferred_promoted (.inr rfl) hdu hv
  obtain ⟨w, hw, hnil⟩ := exec_cons.mp hs
  obtain rfl := Option.some.inj hnil
  obtain ⟨-, hr⟩ := Lifetime.step_cases hw
  obtain ⟨r, hcall, ht⟩ := bind_ok_iff.mp hr
  cases ht
  obtain ⟨h1, h2⟩ := extractServiceableTargets_cover hdv hcall
  exact ⟨h1, h2⟩

theorem Cover.step {s t : Life} {c : CacheStep} (h : Cover s) (hs : step s c = some t) :
    Cover t := by
  unfold Flags.step at hs
  split at hs
  · next hadm =>
    cases c with
    | alone op =>
      obtain ⟨u, hu, hnil⟩ := exec_cons.mp hs
      obtain rfl := Option.some.inj hnil
      exact h.alone hadm.1 hu
    | response readable writable cmd => exact h.response hs
  · cases hs

theorem addsRequest_of_mem_response {t : Life} {readable writable : Bool} {cmd : MemCmd} {op : Op}
    (hop : op ∈ (CacheStep.response readable writable cmd).ops) : AddsRequest t op := by
  rcases List.mem_append.mp hop with hop | hop
  · split at hop
    · rw [List.mem_singleton.mp hop]
      trivial
    · exact absurd hop List.not_mem_nil
  · rcases List.mem_append.mp hop with hop | hop
    · split at hop
      · rw [List.mem_singleton.mp hop]
        trivial
      · exact absurd hop List.not_mem_nil
    · rw [List.mem_singleton.mp hop]
      trivial

/-- No operation of a step fails the assertion in `needsWritable`. -/
theorem ops_ne {s t : Life} {c : CacheStep} {pre post : List Op} {op : Op}
    (hadm : Admissible s c) (hops : c.ops = pre ++ op :: post)
    (ht : exec Lifetime.step s pre = some t) :
    Lifetime.run t op ≠ .error .needsWritableOfResponse := by
  cases c with
  | alone op' =>
    cases pre with
    | nil =>
      obtain ⟨rfl, -⟩ := List.cons.inj hops
      obtain rfl := Option.some.inj ht
      exact run_ne hadm.2
    | cons x xs =>
      have hlen := congrArg List.length hops
      simp only [CacheStep.ops, List.length_cons, List.length_nil, List.length_append] at hlen
      omega
  | response readable writable cmd =>
    have hmem : op ∈ (CacheStep.response readable writable cmd).ops := by
      rw [hops]
      exact List.mem_append_right _ List.mem_cons_self
    exact run_ne (addsRequest_of_mem_response hmem)

/-- In every state between two steps of the cache the flags of both lists cover
every target that is still a request, and no step asks a response packet whether
it needs a writable copy: neither the operations nor `updateFlags` inside them. -/
theorem flags_cover_every_request (id blkAddr blkSize : ℕ) (h : Heap) (target : PacketId)
    (allocOnFill : Bool) (cs : List CacheStep) (s : Life)
    (hr : exec step (Lifetime.start id blkAddr blkSize h target allocOnFill) cs = some s) :
    (∀ l ∈ [s.mshr.targets, s.mshr.deferredTargets], ∀ t ∈ l.list, t.source ≠ .fromSnoop →
      (s.heap t.pkt).isRequest = true →
      ((s.heap t.pkt).cmd.needsWritable = true → l.needsWritable = true) ∧
      ((s.heap t.pkt).cmd.isUpgrade = true ∨ (s.heap t.pkt).cmd = .storeCondReq →
        l.hasUpgrade = true)) ∧
    (∀ c, Admissible s c → ∀ pre op post t, c.ops = pre ++ op :: post →
      exec Lifetime.step s pre = some t →
      Lifetime.run t op ≠ .error .needsWritableOfResponse) ∧
    (∀ l p source a, updateFlagsAsserting l p source a = .ok (l.updateFlags p source a)) := by
  have hc : Cover s :=
    exec_invariant (fun _ _ _ hi hs => hi.step hs)
      (cover_start id blkAddr blkSize h target allocOnFill) hr
  refine ⟨?_, fun c hadm pre op post t => ops_ne hadm, updateFlagsAsserting_eq⟩
  intro l hl
  rcases List.mem_cons.mp hl with rfl | hl
  · exact hc.targets
  · obtain rfl := List.mem_singleton.mp hl
    exact hc.deferred

-- packet 0 reads, packet 1 upgrades; while the miss is in service packet 1 is deferred,
-- then packet 0 is answered and a writable response promotes packet 1
def upgradeHeap (answered : Bool) : Heap := fun i =>
  Packet.plain (if i = 1 then .upgradeReq else if answered then .readResp else .readReq) false

def upgradeSteps : List CacheStep :=
  [.alone (.mark true false false false false false false), .alone (.allocateTarget 1 true),
    .alone (.answer (upgradeHeap true)), .response false true .readRespWithInvalidate]

theorem flags_cover_every_request_promoted :
    ∃ s, exec step (Lifetime.start 0 0 1 (upgradeHeap false) 0 true) upgradeSteps = some s ∧
      s.mshr.targets.list = [⟨1, .fromCPU, true⟩] ∧ s.mshr.targets.hasUpgrade = true := by
  have hsome : ((exec step (Lifetime.start 0 0 1 (upgradeHeap false) 0 true) upgradeSteps).map
      fun s => (s.mshr.targets.list, s.heap 1)) =
      some ([⟨1, .fromCPU, true⟩], upgradeHeap true 1) := by decide +kernel
  obtain ⟨s, hs, heq⟩ := Option.map_eq_some_iff.mp hsome
  obtain ⟨hlist, hpkt⟩ := Prod.mk.inj heq
  have h := (flags_cover_every_request 0 0 1 (upgradeHeap false) 0 true upgradeSteps s hs).1
    s.mshr.targets List.mem_cons_self ⟨1, .fromCPU, true⟩ (by rw [hlist]; exact List.mem_cons_self)
    (by decide) (by rw [hpkt]; decide)
  exact ⟨s, hs, hlist, h.2 (.inl (by rw [hpkt]; decide))⟩

end PnmCompaction.Cache.Flags
