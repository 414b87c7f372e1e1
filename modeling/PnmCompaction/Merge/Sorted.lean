import PnmCompaction.Merge.Steps

/-!
# The merged keys are in order and complete

A merge (table/compaction_merging_iterator.cc 254-372) gives out the keys of its files in
order. When it ends without an error it has given out every key of every file, and it ends
with an error exactly when some file has one.
-/


namespace PnmCompaction.Merge

variable {κ α ε : Type*} [LinearOrder κ] {n : ℕ}

namespace MergingIterator

variable {m m' : MergingIterator κ α ε n} {item : HeapItem κ n}

/-- Not at a sentinel. -/
def Visible (m : MergingIterator κ α ε n) : Prop :=
  ∀ item, m.minHeap.top = some item → item.type = .iterator →
    (m.children item.level).atSentinel = false

theorem Gives.trans {m₁ m₂ m₃ : MergingIterator κ α ε n} {x y : Multiset (Merged κ α)}
    (h : Gives m₁ m₂ x) (h' : Gives m₂ m₃ y) : Gives m₁ m₃ (x + y) :=
  ⟨h'.inv, by rw [h.content, h'.content, add_assoc], h'.errors.trans h.errors⟩

theorem Inv.refl_gives (h : Inv m) : Gives m m 0 :=
  ⟨h, (zero_add _).symm, rfl⟩

theorem findNextVisibleKey_spec (h : Inv m) :
    ∃ m', m.findNextVisibleKey = some m' ∧ Gives m m' 0 ∧ m'.Visible := by
  fun_induction findNextVisibleKey m with
  | case1 m htop =>
    refine ⟨m, rfl, h.refl_gives, fun item hitem => ?_⟩
    rw [htop] at hitem
    cases hitem
  | case2 m item htop hat hnone ih =>
    obtain ⟨rest, hdata⟩ := data_of_top htop
    have hstep := h.sentinel_step hdata hat.1 hat.2 (by simpa using hnone)
    obtain ⟨m', hm', hgives, hvisible⟩ := ih hstep.inv
    refine ⟨m', hm', ?_, hvisible⟩
    have htrans := hstep.trans hgives
    rwa [add_zero] at htrans
  | case3 m item htop hat hnone => exact absurd (by simpa using h.exhausted htop hat.1 hat.2) hnone
  | case4 m item htop hat =>
    refine ⟨m, rfl, h.refl_gives, fun item' hitem' htype => ?_⟩
    cases htop.symm.trans hitem'
    simpa [htype] using hat

/-- Every key in turn is the least one left. -/
theorem next_spec (h : Inv m) {y : Merged κ α} (hcur : m.current = some y) :
    (∀ z ∈ m.content, y.key ≤ z.key) ∧
      ∃ m', m.next = some m' ∧ Gives m m' {y} ∧ m'.Visible := by
  unfold current at hcur
  split at hcur
  · next item hstatus htop =>
    obtain ⟨rest, hdata⟩ := data_of_top htop
    have hle : ∀ z ∈ m.content, item.key ≤ z.key := fun z hz => h.top_le hstatus htop hz
    have hfind : ∀ {m₁ : MergingIterator κ α ε n}, Gives m m₁ {y} →
        ∃ m', m₁.findNextVisibleKey = some m' ∧ Gives m m' {y} ∧ m'.Visible := by
      intro m₁ hgives
      obtain ⟨m', hm', hfound, hvisible⟩ := findNextVisibleKey_spec hgives.inv
      have htrans := hgives.trans hfound
      rw [add_zero] at htrans
      exact ⟨m', hm', htrans, hvisible⟩
    unfold next
    rw [htop]
    dsimp only
    split at hcur
    · next k v htype hpos =>
      cases hcur
      obtain ⟨⟨p, hp, hkey⟩, -⟩ := h.top_iterator hdata htype
      cases hp.symm.trans hpos
      rw [htype]
      exact ⟨fun z hz => hkey.symm.le.trans (hle z hz), hfind (h.point_step hdata htype hpos)⟩
    · cases hcur
    · next htype =>
      cases hcur
      rw [htype]
      exact ⟨hle, hfind (h.start_step hdata htype)⟩
  · cases hcur

theorem levels_empty (h : Inv m) (hdata : m.minHeap.data = []) (i : Fin n) :
    (m.children i).position = none ∧ m.tombstones i = [] := by
  have hzero : m.items = 0 := by rw [← h.items, hdata]; rfl
  rw [items_eq m i, levelItems, add_eq_zero, add_eq_zero] at hzero
  obtain ⟨⟨hpos, hstart⟩, -⟩ := hzero
  constructor
  · cases hp : (m.children i).position with
    | none => rfl
    | some p =>
      rw [positionItems_some hp] at hpos
      exact absurd hpos (Multiset.singleton_ne_zero _)
  · cases ht : m.tombstones i with
    | nil => rfl
    | cons k ks =>
      rw [ht] at hstart
      exact absurd hstart (Multiset.singleton_ne_zero _)

/-- The iterator stops being valid for an error or because nothing is left. -/
theorem current_none (h : Inv m) (hvisible : m.Visible) (hcur : m.current = none)
    (hstatus : m.status = none) : m.content = 0 ∧ m.errors = 0 := by
  have htop : m.minHeap.top = none := by
    cases htop : m.minHeap.top with
    | none => rfl
    | some item =>
      obtain ⟨rest, hdata⟩ := data_of_top htop
      simp only [current, hstatus, htop] at hcur
      cases htype : item.type with
      | deleteRangeStart => simp [htype] at hcur
      | iterator =>
        obtain ⟨⟨p, hp, -⟩, -⟩ := h.top_iterator hdata htype
        have hat := hvisible item htop htype
        cases p with
        | point k v => simp [htype, hp] at hcur
        | sentinel k => simp [Child.atSentinel, hp] at hat
  have hdata : m.minHeap.data = [] := by
    rwa [BinaryHeap.top, List.head?_eq_none_iff] at htop
  have hnone := levels_empty h hdata
  constructor
  · refine Finset.sum_eq_zero fun i _ => ?_
    obtain ⟨hpos, htomb⟩ := hnone i
    rw [(Child.position_none (h.ordered i) hpos (h.checked hstatus i hpos)).1, htomb]
    rfl
  · refine Finset.sum_eq_zero fun i _ => ?_
    obtain ⟨hpos, -⟩ := hnone i
    exact (Child.position_none (h.ordered i) hpos (h.checked hstatus i hpos)).2

theorem drain_spec (h : Inv m) (hvisible : m.Visible) {fuel : ℕ}
    (hfuel : m.content.card < fuel) :
    ∃ ys s, m.drain fuel = some (ys, s) ∧ ys.Pairwise (fun y z => y.key ≤ z.key) ∧
      (ys : Multiset (Merged κ α)) ≤ m.content ∧
      (s = none → (ys : Multiset (Merged κ α)) = m.content ∧ m.errors = 0) ∧
      ∀ e, s = some e → e ∈ m.errors := by
  induction fuel generalizing m with
  | zero => omega
  | succ fuel ih =>
    cases hcur : m.current with
    | none =>
      refine ⟨[], m.status, by simp [drain, hcur], .nil, Multiset.zero_le _, fun hs => ?_, h.blamed⟩
      obtain ⟨hcontent, herrors⟩ := current_none h hvisible hcur hs
      exact ⟨hcontent.symm, herrors⟩
    | some y =>
      obtain ⟨hleast, m', hnext, hgives, hvisible'⟩ := next_spec h hcur
      have hcontent := hgives.content
      have hcard : m'.content.card < fuel := by
        rw [hcontent, Multiset.card_add, Multiset.card_singleton] at hfuel
        omega
      obtain ⟨ys, s, hdrain, hsorted, hsub, hall, hblamed⟩ := ih hgives.inv hvisible' hcard
      rw [hgives.errors] at hall hblamed
      refine ⟨y :: ys, s, by simp [drain, hcur, hnext, hdrain], ?_, ?_, fun hs => ?_, hblamed⟩
      · refine List.pairwise_cons.mpr ⟨fun z hz => hleast z ?_, hsorted⟩
        rw [hcontent]
        exact Multiset.mem_add.mpr (.inr (Multiset.mem_of_le hsub (Multiset.mem_coe.mpr hz)))
      · rw [hcontent, ← Multiset.cons_coe, ← Multiset.singleton_add]
        exact add_le_add le_rfl hsub
      · obtain ⟨hys, herrors⟩ := hall hs
        refine ⟨?_, herrors⟩
        rw [hcontent, ← Multiset.cons_coe, ← Multiset.singleton_add, hys]

/-! ### The start -/

theorem add_spec (hwf : m.minHeap.WellFormed HeapItem.cmp) (i : Fin n) :
    (m.addToMinHeapOrCheckStatus i).minHeap.WellFormed HeapItem.cmp ∧
      ((m.addToMinHeapOrCheckStatus i).minHeap.data : Multiset (HeapItem κ n)) =
        positionItems i (m.children i) + m.minHeap.data ∧
      (m.addToMinHeapOrCheckStatus i).children = m.children ∧
      (m.addToMinHeapOrCheckStatus i).tombstones = m.tombstones ∧
      ((m.addToMinHeapOrCheckStatus i).status = m.status ∧ (m.children i).position ≠ none ∨
        (m.addToMinHeapOrCheckStatus i).status = m.status.or (m.children i).status) := by
  unfold addToMinHeapOrCheckStatus
  split
  · next p hp =>
    refine ⟨BinaryHeap.push_wellFormed cmp_strictWeak hwf _, ?_, rfl, rfl,
      .inl ⟨rfl, by simp [hp]⟩⟩
    rw [Multiset.coe_eq_coe.mpr (BinaryHeap.push_perm _), ← Multiset.cons_coe,
      positionItems_some hp, Multiset.singleton_add]
  · next hp =>
    rw [positionItems_none hp, zero_add]
    exact ⟨hwf, rfl, rfl, rfl, .inr rfl⟩

/-- The first loop of `SeekToFirst`, over any levels. -/
theorem addAll_spec (hwf : m.minHeap.WellFormed HeapItem.cmp) (l : List (Fin n)) :
    (l.foldl addToMinHeapOrCheckStatus m).minHeap.WellFormed HeapItem.cmp ∧
      ((l.foldl addToMinHeapOrCheckStatus m).minHeap.data : Multiset (HeapItem κ n)) =
        (l.map fun i => positionItems i (m.children i)).sum + m.minHeap.data ∧
      (l.foldl addToMinHeapOrCheckStatus m).children = m.children ∧
      (l.foldl addToMinHeapOrCheckStatus m).tombstones = m.tombstones ∧
      ((l.foldl addToMinHeapOrCheckStatus m).status = none → m.status = none ∧
        ∀ i ∈ l, (m.children i).position = none → (m.children i).status = none) ∧
      ∀ e, (l.foldl addToMinHeapOrCheckStatus m).status = some e →
        m.status = some e ∨ ∃ i ∈ l, (m.children i).status = some e := by
  induction l generalizing m with
  | nil => exact ⟨hwf, by simp, rfl, rfl, fun hs => ⟨hs, by simp⟩, fun e he => .inl he⟩
  | cons i l ih =>
    obtain ⟨hwf₁, hdata₁, hchild₁, htomb₁, hstatus₁⟩ := add_spec hwf i
    obtain ⟨hwf₂, hdata₂, hchild₂, htomb₂, hnone₂, hsome₂⟩ := ih hwf₁
    rw [hchild₁] at hdata₂ hchild₂ hnone₂ hsome₂
    rw [htomb₁] at htomb₂
    simp only [List.foldl_cons]
    refine ⟨hwf₂, ?_, hchild₂, htomb₂, fun hs => ?_, fun e he => ?_⟩
    · rw [hdata₂, hdata₁, List.map_cons, List.sum_cons, add_left_comm, ← add_assoc]
    · obtain ⟨hs₁, hl⟩ := hnone₂ hs
      rcases hstatus₁ with ⟨heq, hpos⟩ | heq
      · refine ⟨heq.symm.trans hs₁, List.forall_mem_cons.mpr ⟨fun hp => absurd hp hpos, hl⟩⟩
      · rw [hs₁] at heq
        obtain ⟨hold, hnew⟩ := Option.or_eq_none_iff.mp heq.symm
        exact ⟨hold, List.forall_mem_cons.mpr ⟨fun _ => hnew, hl⟩⟩
    · rcases hsome₂ e he with hs₁ | ⟨j, hj, hs₁⟩
      · rcases hstatus₁ with ⟨heq, -⟩ | heq
        · exact .inl (heq.symm.trans hs₁)
        · rw [hs₁] at heq
          rcases Option.or_eq_some_iff.mp heq.symm with hold | ⟨-, hnew⟩
          · exact .inl hold
          · exact .inr ⟨i, List.mem_cons_self, hnew⟩
      · exact .inr ⟨j, List.mem_cons_of_mem i hj, hs₁⟩

/-- The second loop of `SeekToFirst`. -/
theorem insertAll_spec (hwf : m.minHeap.WellFormed HeapItem.cmp) (l : List (Fin n)) :
    (l.foldl insertRangeTombstoneAtLevel m).minHeap.WellFormed HeapItem.cmp ∧
      ((l.foldl insertRangeTombstoneAtLevel m).minHeap.data : Multiset (HeapItem κ n)) =
        (l.map fun i => startItems i (m.tombstones i)).sum + m.minHeap.data ∧
      (l.foldl insertRangeTombstoneAtLevel m).children = m.children ∧
      (l.foldl insertRangeTombstoneAtLevel m).tombstones = m.tombstones ∧
      (l.foldl insertRangeTombstoneAtLevel m).status = m.status := by
  induction l generalizing m with
  | nil => exact ⟨hwf, by simp, rfl, rfl, rfl⟩
  | cons i l ih =>
    obtain ⟨hwf₁, hdata₁⟩ := insert_heap hwf i
    obtain ⟨hchild₁, htomb₁, hstatus₁⟩ := insert_fields m i
    obtain ⟨hwf₂, hdata₂, hchild₂, htomb₂, hstatus₂⟩ := ih hwf₁
    rw [htomb₁] at hdata₂ htomb₂
    simp only [List.foldl_cons]
    refine ⟨hwf₂, ?_, hchild₂.trans hchild₁, htomb₂, hstatus₂.trans hstatus₁⟩
    rw [hdata₂, hdata₁, List.map_cons, List.sum_cons, add_left_comm, ← add_assoc]

theorem seekToFirst_spec (sources : Fin n → Source κ α ε) (hord : ∀ i, (sources i).Ordered) :
    ∃ m, seekToFirst sources = some m ∧ Inv m ∧ m.Visible ∧
      m.content = ∑ i, (sources i).content ∧ m.errors = ∑ i, (sources i).errors := by
  obtain ⟨hwf₁, hdata₁, hchild₁, htomb₁, hnone₁, hsome₁⟩ :=
    addAll_spec (m := positioned sources) (BinaryHeap.empty_wellFormed _) (List.finRange n)
  obtain ⟨hwf₂, hdata₂, hchild₂, htomb₂, hstatus₂⟩ := insertAll_spec hwf₁ (List.finRange n)
  rw [hchild₁] at hchild₂
  rw [htomb₁] at htomb₂ hdata₂
  have hstart : Inv ((List.finRange n).foldl insertRangeTombstoneAtLevel
      ((List.finRange n).foldl addToMinHeapOrCheckStatus (positioned sources))) := by
    refine ⟨hwf₂, ?_, fun i => ?_, fun hs i => ?_, fun e he => ?_⟩
    · have hempty : ((positioned sources).minHeap.data : Multiset (HeapItem κ n)) = 0 := rfl
      rw [hdata₂, hdata₁, hempty, add_zero, ← Fin.sum_univ_def, ← Fin.sum_univ_def,
        ← Finset.sum_add_distrib, items, hchild₂, htomb₂]
      exact Finset.sum_congr rfl fun i _ => add_comm _ _
    · rw [hchild₂, htomb₂]
      exact (Child.seekToFirst_spec (sources i) (hord i)).2.2
    · rw [hchild₂]
      exact (hnone₁ (hstatus₂.symm.trans hs)).2 i (List.mem_finRange i)
    · rcases hsome₁ e (hstatus₂.symm.trans he) with hs | ⟨i, -, hs⟩
      · cases hs
      · rw [errors, hchild₂]
        exact Multiset.mem_sum.mpr ⟨i, Finset.mem_univ i, Child.status_mem_errors hs⟩
  obtain ⟨m, hm, hgives, hvisible⟩ := findNextVisibleKey_spec hstart
  have hcontent := hgives.content
  rw [zero_add] at hcontent
  refine ⟨m, hm, hgives.inv, hvisible, hcontent.symm.trans ?_, hgives.errors.trans ?_⟩
  · rw [content, hchild₂, htomb₂]
    exact Finset.sum_congr rfl fun i _ => (Child.seekToFirst_spec (sources i) (hord i)).1
  · rw [errors, hchild₂]
    exact Finset.sum_congr rfl fun i _ => (Child.seekToFirst_spec (sources i) (hord i)).2.1

end MergingIterator

/-- The whole merge; there are as many rounds as keys. -/
def merge (sources : Fin n → Source κ α ε) : Option (List (Merged κ α) × Option ε) :=
  (MergingIterator.seekToFirst sources).bind
    (MergingIterator.drain ((∑ i, (sources i).content).card + 1))

theorem merge_spec (sources : Fin n → Source κ α ε) (hord : ∀ i, (sources i).Ordered) :
    ∃ ys s, merge sources = some (ys, s) ∧ ys.Pairwise (fun y z => y.key ≤ z.key) ∧
      (ys : Multiset (Merged κ α)) ≤ ∑ i, (sources i).content ∧
      (s = none → (ys : Multiset (Merged κ α)) = ∑ i, (sources i).content ∧
        ∑ i, (sources i).errors = 0) ∧
      ∀ e, s = some e → e ∈ ∑ i, (sources i).errors := by
  obtain ⟨m, hm, hinv, hvisible, hcontent, herrors⟩ :=
    MergingIterator.seekToFirst_spec sources hord
  obtain ⟨ys, s, hdrain, hsorted, hsub, hall, hblamed⟩ :=
    MergingIterator.drain_spec hinv hvisible (by rw [hcontent]; exact Nat.lt_succ_self _)
  rw [hcontent] at hsub hall
  rw [herrors] at hall hblamed
  exact ⟨ys, s, by rw [merge, hm]; exact hdrain, hsorted, hsub, hall, hblamed⟩

/-- A merge runs to its end without failing an assertion, its keys come in order and only
from its files, all of them when it ends without an error, and it ends without one exactly
when no file has one. -/
theorem merge_sorted_complete (sources : Fin n → Source κ α ε)
    (hord : ∀ i, (sources i).Ordered) :
    ∃ ys s, merge sources = some (ys, s) ∧ ys.Pairwise (fun y z => y.key ≤ z.key) ∧
      (ys : Multiset (Merged κ α)) ≤ ∑ i, (sources i).content ∧
      (s = none → (ys : Multiset (Merged κ α)) = ∑ i, (sources i).content) ∧
      (s = none ↔ ∑ i, (sources i).errors = 0) := by
  obtain ⟨ys, s, hmerge, hsorted, hsub, hall, hblamed⟩ := merge_spec sources hord
  refine ⟨ys, s, hmerge, hsorted, hsub, fun hs => (hall hs).1, fun hs => (hall hs).2,
    fun hzero => ?_⟩
  cases s with
  | none => rfl
  | some e =>
    have hmem := hblamed e rfl
    rw [hzero] at hmem
    exact absurd hmem (Multiset.notMem_zero e)

/-- A file of level 0 and a level of two files. -/
def sampleSources : Fin 2 → Source ℕ Char String
  | 0 => .table ⟨[(2, 'a'), (5, 'b')], none, [3], 9⟩
  | 1 => .level ⟨[(1, 'c'), (4, 'd')], none, [0], 4⟩ [⟨[(6, 'e')], none, [5], 7⟩]

theorem sampleSources_ordered : ∀ i, (sampleSources i).Ordered := by
  refine Fin.forall_fin_two.mpr ⟨?_, ?_, ?_⟩
  · exact ⟨by decide, by decide, by decide, by decide⟩
  · intro g hg
    rcases List.mem_cons.mp hg with rfl | hg
    · exact ⟨by decide, by decide, by decide, by decide⟩
    · rw [List.mem_singleton.mp hg]
      exact ⟨by decide, by decide, by decide, by decide⟩
  · refine List.pairwise_cons.mpr ⟨fun g hg y hy => ?_, List.pairwise_singleton _ _⟩
    rw [List.mem_singleton.mp hg] at hy
    rcases Multiset.mem_add.mp hy with hy | hy
    · obtain ⟨p, hp, rfl⟩ := mem_pointKeys.mp hy
      rw [List.mem_singleton.mp hp]
      decide
    · obtain ⟨k, hk, rfl⟩ := mem_startKeys.mp hy
      rw [List.mem_singleton.mp hk]
      decide

theorem merge_sorted_complete_sample :
    ∃ ys s, merge sampleSources = some (ys, s) ∧ ys.Pairwise (fun y z => y.key ≤ z.key) ∧
      (ys : Multiset (Merged ℕ Char)) ≤ ∑ i, (sampleSources i).content ∧
      (s = none → (ys : Multiset (Merged ℕ Char)) = ∑ i, (sampleSources i).content) ∧
      (s = none ↔ ∑ i, (sampleSources i).errors = 0) :=
  merge_sorted_complete sampleSources sampleSources_ordered

example : merge sampleSources = some
    ([.rangeStart 0, .point 1 'c', .point 2 'a', .rangeStart 3, .point 4 'd', .point 5 'b',
      .rangeStart 5, .point 6 'e'], none) := by
  decide +kernel

end PnmCompaction.Merge
