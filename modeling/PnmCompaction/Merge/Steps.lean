import PnmCompaction.Merge.Children

/-!
# The steps of the merging iterator

The heap holds one item for the position of each child and one for the first range tombstone
of each level. Each step takes the item at the top, which is the least key of all that is
left, and gives it out or moves past a sentinel (`Next` and `FindNextVisibleKey`,
table/compaction_merging_iterator.cc 301-363).
-/


namespace PnmCompaction.Merge

variable {κ α ε : Type*} [LinearOrder κ] {n : ℕ}

theorem cmp_strictWeak : Lib.StrictWeak (HeapItem.cmp : HeapItem κ n → HeapItem κ n → Bool) where
  asymm h := by
    simp only [HeapItem.cmp, decide_eq_true_eq, decide_eq_false_iff_not, not_lt] at h ⊢
    exact h.le
  negTrans h h' := by
    simp only [HeapItem.cmp, decide_eq_false_iff_not, not_lt] at h h' ⊢
    exact h.trans h'

/-- The items of one level. -/
def positionItems (i : Fin n) (c : Child κ α ε) : Multiset (HeapItem κ n) :=
  match c.position with
  | some p => {⟨p.key, i, .iterator⟩}
  | none => 0

def startItems (i : Fin n) : List κ → Multiset (HeapItem κ n)
  | k :: _ => {⟨k, i, .deleteRangeStart⟩}
  | [] => 0

def levelItems (i : Fin n) (c : Child κ α ε) (tombstones : List κ) : Multiset (HeapItem κ n) :=
  positionItems i c + startItems i tombstones

omit [LinearOrder κ] in
theorem positionItems_some {i : Fin n} {c : Child κ α ε} {p : Position κ α}
    (h : c.position = some p) : positionItems i c = {⟨p.key, i, .iterator⟩} := by
  rw [positionItems, h]

omit [LinearOrder κ] in
theorem positionItems_none {i : Fin n} {c : Child κ α ε} (h : c.position = none) :
    positionItems i c = 0 := by
  rw [positionItems, h]

namespace MergingIterator

def items (m : MergingIterator κ α ε n) : Multiset (HeapItem κ n) :=
  ∑ i, levelItems i (m.children i) (m.tombstones i)

/-- The items of the other levels. -/
def others (m : MergingIterator κ α ε n) (i : Fin n) : Multiset (HeapItem κ n) :=
  ∑ j ∈ Finset.univ.erase i, levelItems j (m.children j) (m.tombstones j)

def content (m : MergingIterator κ α ε n) : Multiset (Merged κ α) :=
  ∑ i, ((m.children i).content + startKeys (m.tombstones i))

def errors (m : MergingIterator κ α ε n) : Multiset ε := ∑ i, (m.children i).errors

variable {m m' : MergingIterator κ α ε n} {i : Fin n} {item : HeapItem κ n}

omit [LinearOrder κ] in
theorem items_eq (m : MergingIterator κ α ε n) (i : Fin n) :
    m.items = levelItems i (m.children i) (m.tombstones i) + m.others i :=
  (Finset.add_sum_erase _ _ (Finset.mem_univ i)).symm

/-- Two states that differ at one level only. -/
def SameBut (i : Fin n) (m m' : MergingIterator κ α ε n) : Prop :=
  ∀ j, j ≠ i → m'.children j = m.children j ∧ m'.tombstones j = m.tombstones j

omit [LinearOrder κ] in
theorem SameBut.others (h : SameBut i m m') : m'.others i = m.others i := by
  refine Finset.sum_congr rfl fun j hj => ?_
  obtain ⟨hc, ht⟩ := h j (Finset.ne_of_mem_erase hj)
  rw [hc, ht]

omit [LinearOrder κ] in
theorem SameBut.content (h : SameBut i m m') {x : Multiset (Merged κ α)}
    (hi : (m.children i).content + startKeys (m.tombstones i) =
      x + ((m'.children i).content + startKeys (m'.tombstones i))) :
    m.content = x + m'.content := by
  have hrest : ∑ j ∈ Finset.univ.erase i, ((m'.children j).content + startKeys (m'.tombstones j)) =
      ∑ j ∈ Finset.univ.erase i, ((m.children j).content + startKeys (m.tombstones j)) := by
    refine Finset.sum_congr rfl fun j hj => ?_
    obtain ⟨hc, ht⟩ := h j (Finset.ne_of_mem_erase hj)
    rw [hc, ht]
  rw [MergingIterator.content, MergingIterator.content,
    ← Finset.add_sum_erase _ _ (Finset.mem_univ i), ← Finset.add_sum_erase _ _ (Finset.mem_univ i),
    hrest, hi, add_assoc]

omit [LinearOrder κ] in
theorem SameBut.errors (h : SameBut i m m')
    (hi : (m'.children i).errors = (m.children i).errors) : m'.errors = m.errors := by
  refine Finset.sum_congr rfl fun j _ => ?_
  by_cases hj : j = i
  · rw [hj, hi]
  · rw [(h j hj).1]

/-! ### The invariant -/

structure Inv (m : MergingIterator κ α ε n) : Prop where
  wellFormed : m.minHeap.WellFormed HeapItem.cmp
  items : (m.minHeap.data : Multiset (HeapItem κ n)) = m.items
  ordered : ∀ i, (m.children i).Ordered (m.tombstones i)
  checked : m.status = none → ∀ i, (m.children i).position = none → (m.children i).status = none
  blamed : ∀ e, m.status = some e → e ∈ m.errors

omit [LinearOrder κ] in
theorem mem_items {item : HeapItem κ n} (h : item ∈ m.items) :
    item ∈ levelItems item.level (m.children item.level) (m.tombstones item.level) := by
  obtain ⟨i, -, hi⟩ := Multiset.mem_sum.mp h
  have hlevel : item.level = i := by
    rcases Multiset.mem_add.mp hi with hp | hs
    · unfold positionItems at hp
      split at hp
      · rw [Multiset.mem_singleton.mp hp]
      · exact absurd hp (Multiset.notMem_zero _)
    · unfold startItems at hs
      split at hs
      · rw [Multiset.mem_singleton.mp hs]
      · exact absurd hs (Multiset.notMem_zero _)
  rwa [hlevel]

omit [LinearOrder κ] in
theorem data_of_top (htop : m.minHeap.top = some item) : ∃ rest, m.minHeap.data = item :: rest := by
  unfold BinaryHeap.top at htop
  cases hdata : m.minHeap.data with
  | nil => simp [hdata] at htop
  | cons a rest =>
    rw [hdata] at htop
    cases htop
    exact ⟨rest, rfl⟩

variable {rest : List (HeapItem κ n)}

theorem Inv.mem_top (h : Inv m) (hdata : m.minHeap.data = item :: rest) :
    item ∈ levelItems item.level (m.children item.level) (m.tombstones item.level) := by
  refine mem_items ?_
  rw [← h.items, hdata]
  exact Multiset.mem_coe.mpr List.mem_cons_self

/-- The top is the position of a child. -/
theorem Inv.top_iterator (h : Inv m) (hdata : m.minHeap.data = item :: rest)
    (htype : item.type = .iterator) :
    (∃ p, (m.children item.level).position = some p ∧ item.key = p.key) ∧
      (rest : Multiset (HeapItem κ n)) =
        startItems item.level (m.tombstones item.level) + m.others item.level := by
  have hitems := h.items
  rw [hdata, ← Multiset.cons_coe, items_eq m item.level, levelItems] at hitems
  have hmem := h.mem_top hdata
  have hpos : item ∈ positionItems item.level (m.children item.level) := by
    rcases Multiset.mem_add.mp hmem with hp | hs
    · exact hp
    · unfold startItems at hs
      split at hs
      · rw [Multiset.mem_singleton.mp hs] at htype
        cases htype
      · exact absurd hs (Multiset.notMem_zero _)
  unfold positionItems at hpos hitems
  split at hpos
  · next p hp =>
    have heq := Multiset.mem_singleton.mp hpos
    refine ⟨⟨p, hp, by rw [heq]⟩, ?_⟩
    simp only [hp] at hitems
    rw [← heq, add_assoc, Multiset.singleton_add] at hitems
    exact (Multiset.cons_inj_right item).mp hitems
  · exact absurd hpos (Multiset.notMem_zero _)

/-- The top is the first range tombstone of a level. -/
theorem Inv.top_start (h : Inv m) (hdata : m.minHeap.data = item :: rest)
    (htype : item.type = .deleteRangeStart) :
    (∃ ks, m.tombstones item.level = item.key :: ks) ∧
      (rest : Multiset (HeapItem κ n)) =
        positionItems item.level (m.children item.level) + m.others item.level := by
  have hitems := h.items
  rw [hdata, ← Multiset.cons_coe, items_eq m item.level, levelItems] at hitems
  have hmem := h.mem_top hdata
  have hstart : item ∈ startItems item.level (m.tombstones item.level) := by
    rcases Multiset.mem_add.mp hmem with hp | hs
    · unfold positionItems at hp
      split at hp
      · rw [Multiset.mem_singleton.mp hp] at htype
        cases htype
      · exact absurd hp (Multiset.notMem_zero _)
    · exact hs
  cases htomb : m.tombstones item.level with
  | nil =>
    rw [htomb] at hstart
    exact absurd hstart (Multiset.notMem_zero _)
  | cons k ks =>
    rw [htomb] at hstart hitems
    have heq := Multiset.mem_singleton.mp hstart
    refine ⟨⟨ks, by rw [heq]⟩, ?_⟩
    change item ::ₘ ↑rest = positionItems item.level (m.children item.level) +
      {⟨k, item.level, .deleteRangeStart⟩} + m.others item.level at hitems
    rw [← heq, add_right_comm, add_comm, Multiset.singleton_add] at hitems
    exact (Multiset.cons_inj_right item).mp hitems

/-- The top of the heap is not behind anything that is left. -/
theorem Inv.top_le (h : Inv m) (hstatus : m.status = none) (htop : m.minHeap.top = some item)
    {y : Merged κ α} (hy : y ∈ m.content) : item.key ≤ y.key := by
  have hle : ∀ b ∈ m.items, item.key ≤ b.key := by
    intro b hb
    rw [← h.items, Multiset.mem_coe] at hb
    have hcmp := h.wellFormed.top_max cmp_strictWeak htop b hb
    simpa [HeapItem.cmp] using hcmp
  obtain ⟨i, -, hi⟩ := Multiset.mem_sum.mp hy
  have hlevel : ∀ b ∈ levelItems i (m.children i) (m.tombstones i), item.key ≤ b.key := fun b hb =>
    hle b (Multiset.mem_sum.mpr ⟨i, Finset.mem_univ i, hb⟩)
  rcases Multiset.mem_add.mp hi with hc | hs
  · cases hpos : (m.children i).position with
    | none =>
      rw [(Child.position_none (h.ordered i) hpos (h.checked hstatus i hpos)).1] at hc
      exact absurd hc (Multiset.notMem_zero y)
    | some p =>
      have hp := hlevel ⟨p.key, i, .iterator⟩ (by simp [levelItems, positionItems, hpos])
      exact hp.trans (Child.position_le (h.ordered i) hpos hc)
  · have hord := h.ordered i
    cases htomb : m.tombstones i with
    | nil =>
      rw [htomb] at hs
      exact absurd hs (Multiset.notMem_zero y)
    | cons k ks =>
      have hk := hlevel ⟨k, i, .deleteRangeStart⟩ (by simp [levelItems, startItems, htomb])
      rw [htomb] at hs hord
      exact hk.trans (Child.starts_le hord hs)

/-! ### The heap after each step -/

theorem advance_heap (hwf : m.minHeap.WellFormed HeapItem.cmp)
    (hdata : m.minHeap.data = item :: rest) (i : Fin n) :
    (m.advance i).minHeap.WellFormed HeapItem.cmp ∧
      ((m.advance i).minHeap.data : Multiset (HeapItem κ n)) =
        positionItems i ((m.children i).next (m.tombstones i)).1 + rest := by
  unfold advance considerStatus
  dsimp only
  split
  · next p hp =>
    obtain ⟨hwf', hperm⟩ := BinaryHeap.replaceTop_spec cmp_strictWeak hwf
      (⟨p.key, i, .iterator⟩ : HeapItem κ n) hdata
    refine ⟨hwf', ?_⟩
    rw [Multiset.coe_eq_coe.mpr hperm, ← Multiset.cons_coe, positionItems_some hp,
      Multiset.singleton_add]
  · next hp =>
    obtain ⟨hwf', hperm⟩ := BinaryHeap.pop_spec cmp_strictWeak hwf hdata
    refine ⟨hwf', ?_⟩
    rw [Multiset.coe_eq_coe.mpr hperm, positionItems_none hp, zero_add]

theorem insert_heap (hwf : m.minHeap.WellFormed HeapItem.cmp) (i : Fin n) :
    (m.insertRangeTombstoneAtLevel i).minHeap.WellFormed HeapItem.cmp ∧
      ((m.insertRangeTombstoneAtLevel i).minHeap.data : Multiset (HeapItem κ n)) =
        startItems i (m.tombstones i) + m.minHeap.data := by
  unfold insertRangeTombstoneAtLevel
  split
  · next k ks hk =>
    refine ⟨BinaryHeap.push_wellFormed cmp_strictWeak hwf _, ?_⟩
    rw [Multiset.coe_eq_coe.mpr (BinaryHeap.push_perm _), ← Multiset.cons_coe, hk, startItems,
      Multiset.singleton_add]
  · next hk =>
    rw [hk]
    exact ⟨hwf, (zero_add _).symm⟩

theorem advanceTombstone_heap (hwf : m.minHeap.WellFormed HeapItem.cmp)
    (hdata : m.minHeap.data = item :: rest) (i : Fin n) :
    (m.advanceTombstone i).minHeap.WellFormed HeapItem.cmp ∧
      ((m.advanceTombstone i).minHeap.data : Multiset (HeapItem κ n)) =
        startItems i (m.tombstones i).tail + rest := by
  unfold advanceTombstone
  cases hk : (m.tombstones i).tail with
  | cons k ks =>
    obtain ⟨hwf', hperm⟩ := BinaryHeap.replaceTop_spec cmp_strictWeak hwf
      (⟨k, i, .deleteRangeStart⟩ : HeapItem κ n) hdata
    refine ⟨hwf', ?_⟩
    rw [Multiset.coe_eq_coe.mpr hperm, ← Multiset.cons_coe, startItems, Multiset.singleton_add]
  | nil =>
    obtain ⟨hwf', hperm⟩ := BinaryHeap.pop_spec cmp_strictWeak hwf hdata
    refine ⟨hwf', ?_⟩
    rw [Multiset.coe_eq_coe.mpr hperm, startItems, zero_add]

theorem advance_sameBut (m : MergingIterator κ α ε n) (i : Fin n) : SameBut i m (m.advance i) := by
  intro j hj
  unfold advance considerStatus
  dsimp only
  split <;> exact ⟨Function.update_of_ne hj _ _, Function.update_of_ne hj _ _⟩

theorem advance_at (m : MergingIterator κ α ε n) (i : Fin n) :
    (m.advance i).children i = ((m.children i).next (m.tombstones i)).1 ∧
      (m.advance i).tombstones i = ((m.children i).next (m.tombstones i)).2 := by
  unfold advance considerStatus
  dsimp only
  split <;> exact ⟨Function.update_self i _ _, Function.update_self i _ _⟩

theorem insert_fields (m : MergingIterator κ α ε n) (i : Fin n) :
    (m.insertRangeTombstoneAtLevel i).children = m.children ∧
      (m.insertRangeTombstoneAtLevel i).tombstones = m.tombstones ∧
      (m.insertRangeTombstoneAtLevel i).status = m.status := by
  unfold insertRangeTombstoneAtLevel
  split <;> exact ⟨rfl, rfl, rfl⟩

/-- Where a child without a position reports to. -/
theorem advance_status (m : MergingIterator κ α ε n) (i : Fin n) :
    (m.advance i).status = m.status ∧ (((m.advance i).children i).position ≠ none ∨
        (m.advance i).children i = m.children i) ∨
      (m.advance i).status = m.status.or ((m.advance i).children i).status := by
  rw [(advance_at m i).1]
  unfold advance considerStatus
  dsimp only
  split
  · next p hp => exact .inl ⟨rfl, .inl (by simp [hp])⟩
  · exact .inr rfl

/-- One level changed, and the heap with it. -/
theorem Inv.changed (h : Inv m) (hsame : SameBut i m m')
    (hwf : m'.minHeap.WellFormed HeapItem.cmp)
    (hdata : (m'.minHeap.data : Multiset (HeapItem κ n)) =
      levelItems i (m'.children i) (m'.tombstones i) + m.others i)
    (hord : (m'.children i).Ordered (m'.tombstones i))
    (herrors : (m'.children i).errors = (m.children i).errors)
    (hstatus : m'.status = m.status ∧
        ((m'.children i).position ≠ none ∨ m'.children i = m.children i) ∨
      m'.status = m.status.or (m'.children i).status) : Inv m' := by
  refine ⟨hwf, ?_, fun j => ?_, fun hs j hpos => ?_, fun e he => ?_⟩
  · rw [items_eq m' i, hsame.others, hdata]
  · by_cases hj : j = i
    · rw [hj]
      exact hord
    · rw [(hsame j hj).1, (hsame j hj).2]
      exact h.ordered j
  · have hold : m.status = none := by
      rcases hstatus with ⟨heq, -⟩ | heq
      · exact heq.symm.trans hs
      · rw [hs] at heq
        exact (Option.or_eq_none_iff.mp heq.symm).1
    by_cases hj : j = i
    · rw [hj] at hpos ⊢
      rcases hstatus with ⟨-, hne | hkept⟩ | heq
      · exact absurd hpos hne
      · rw [hkept] at hpos ⊢
        exact h.checked hold i hpos
      · rw [hs] at heq
        exact (Option.or_eq_none_iff.mp heq.symm).2
    · rw [(hsame j hj).1] at hpos ⊢
      exact h.checked hold j hpos
  · rw [hsame.errors herrors]
    rcases hstatus with ⟨heq, -⟩ | heq
    · exact h.blamed e (heq.symm.trans he)
    · rw [he] at heq
      rcases Option.or_eq_some_iff.mp heq.symm with hold | ⟨-, hnew⟩
      · exact h.blamed e hold
      · have hmem := Child.status_mem_errors hnew
        rw [herrors] at hmem
        exact Multiset.mem_sum.mpr ⟨i, Finset.mem_univ i, hmem⟩

/-! ### Steps -/

/-- The state after a step that gave out the keys `x`. -/
structure Gives (m m' : MergingIterator κ α ε n) (x : Multiset (Merged κ α)) : Prop where
  inv : Inv m'
  content : m.content = x + m'.content
  errors : m'.errors = m.errors

theorem Inv.point_step (h : Inv m) (hdata : m.minHeap.data = item :: rest)
    (htype : item.type = .iterator) {k : κ} {v : α}
    (hpos : (m.children item.level).position = some (.point k v)) :
    Gives m (m.advance item.level) {.point k v} := by
  obtain ⟨-, hrest⟩ := h.top_iterator hdata htype
  obtain ⟨hwf, hheap⟩ := advance_heap h.wellFormed hdata item.level
  obtain ⟨hchild, htomb⟩ := advance_at m item.level
  have hsame := advance_sameBut m item.level
  obtain ⟨hsnd, hcontent, herrors, hord⟩ := Child.next_point (h.ordered item.level) hpos
  rw [hsnd] at htomb
  rw [← hchild] at hheap hcontent herrors hord
  refine ⟨h.changed hsame hwf ?_ (htomb ▸ hord) herrors (advance_status m item.level), ?_,
    hsame.errors herrors⟩
  · rw [hheap, hrest, levelItems, htomb, add_assoc]
  · refine hsame.content ?_
    rw [hcontent, htomb, ← Multiset.singleton_add, add_assoc]

/-- At a sentinel the assertion of `FindNextVisibleKey` holds. -/
theorem Inv.exhausted (h : Inv m) (htop : m.minHeap.top = some item)
    (htype : item.type = .iterator) (hat : (m.children item.level).atSentinel = true) :
    m.tombstones item.level = [] := by
  obtain ⟨rest, hdata⟩ := data_of_top htop
  obtain ⟨⟨p, hpos, hkey⟩, -⟩ := h.top_iterator hdata htype
  cases p with
  | point k v => simp [Child.atSentinel, hpos] at hat
  | sentinel k =>
    cases htomb : m.tombstones item.level with
    | nil => rfl
    | cons x xs =>
      -- a tombstone that is left would be at the top instead
      have hlt := Child.starts_lt_sentinel (h.ordered item.level) hpos x
        (by rw [htomb]; exact List.mem_cons_self)
      have hmem : (⟨x, item.level, .deleteRangeStart⟩ : HeapItem κ n) ∈ m.minHeap.data := by
        rw [← Multiset.mem_coe, h.items, items_eq m item.level, levelItems, htomb, startItems]
        simp
      have hle := h.wellFormed.top_max cmp_strictWeak htop _ hmem
      have hle : item.key ≤ x := by simpa [HeapItem.cmp] using hle
      rw [hkey] at hle
      exact absurd hlt (not_lt.mpr hle)

theorem Inv.sentinel_step (h : Inv m) (hdata : m.minHeap.data = item :: rest)
    (htype : item.type = .iterator) (hat : (m.children item.level).atSentinel = true)
    (hnone : m.tombstones item.level = []) :
    Gives m ((m.advance item.level).insertRangeTombstoneAtLevel item.level) 0 := by
  obtain ⟨-, hrest⟩ := h.top_iterator hdata htype
  obtain ⟨hwf, hheap⟩ := advance_heap h.wellFormed hdata item.level
  obtain ⟨hchild, htomb⟩ := advance_at m item.level
  have hsame := advance_sameBut m item.level
  have hstatus := advance_status m item.level
  obtain ⟨hwf', hheap'⟩ := insert_heap hwf item.level
  obtain ⟨hc, ht, hs⟩ := insert_fields (m.advance item.level) item.level
  have hord := h.ordered item.level
  rw [hnone] at hord
  obtain ⟨hcontent, herrors, hord'⟩ := Child.next_sentinel hord hat
  rw [hnone] at hchild htomb hheap hrest
  rw [← hchild] at hcontent herrors hord' hheap
  rw [← htomb] at hcontent hord'
  have hsame' : SameBut item.level m
      ((m.advance item.level).insertRangeTombstoneAtLevel item.level) := by
    unfold SameBut
    rw [hc, ht]
    exact hsame
  refine ⟨h.changed hsame' hwf' ?_ (by rwa [hc, ht]) (by rwa [hc]) (by rwa [hc, hs]), ?_, ?_⟩
  · have hnil : startItems item.level ([] : List κ) = 0 := rfl
    rw [hheap', hheap, hrest, hc, ht, levelItems, hnil, zero_add, add_left_comm, ← add_assoc]
  · refine hsame'.content ?_
    rw [hc, ht, hcontent, hnone, startKeys_nil, add_zero, zero_add]
  · refine hsame'.errors ?_
    rwa [hc]

theorem Inv.start_step (h : Inv m) (hdata : m.minHeap.data = item :: rest)
    (htype : item.type = .deleteRangeStart) :
    Gives m (m.advanceTombstone item.level) {.rangeStart item.key} := by
  obtain ⟨⟨ks, htomb⟩, hrest⟩ := h.top_start hdata htype
  obtain ⟨hwf, hheap⟩ := advanceTombstone_heap h.wellFormed hdata item.level
  have hord := h.ordered item.level
  rw [htomb] at hord
  have hsame : SameBut item.level m (m.advanceTombstone item.level) :=
    fun j hj => ⟨rfl, Function.update_of_ne hj _ _⟩
  have hat : (m.advanceTombstone item.level).tombstones item.level = ks := by
    rw [advanceTombstone, htomb]
    exact Function.update_self item.level _ _
  have hchild : (m.advanceTombstone item.level).children = m.children := rfl
  refine ⟨h.changed hsame hwf ?_ (by rw [hat, hchild]; exact hord.tail) rfl
    (.inl ⟨rfl, .inr rfl⟩), ?_, rfl⟩
  · rw [hheap, hrest, hat, hchild, htomb, List.tail_cons, levelItems, add_left_comm, ← add_assoc]
  · refine hsame.content ?_
    rw [hat, hchild, htomb, startKeys_cons, ← Multiset.singleton_add, add_left_comm]

end MergingIterator

end PnmCompaction.Merge
