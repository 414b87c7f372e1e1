import Mathlib.Data.List.Induction
import Mathlib.Data.Multiset.Basic
import PnmCompaction.Lib.Exec
import PnmCompaction.Lib.HeapOrder

/-!
# The binary heap of a merge

`BinaryHeap` of `util/heap.h` (lines 42-172). `cmp_` is a less-than and `top` is the
greatest element. When the top is replaced by a value that stays on top, only the root
changed, and the heap remembers which of the root's children is the greater one
(`root_cmp_cache_`) so that the next replacement compares once.
-/

namespace PnmCompaction.Merge

open Lib

variable {α : Type*}

structure BinaryHeap (α : Type*) where
  data : List α
  /-- `none` for the maximal `size_t`. -/
  rootCmpCache : Option ℕ
  deriving DecidableEq

namespace BinaryHeap

def empty : BinaryHeap α := ⟨[], none⟩

def top (heap : BinaryHeap α) : Option α := heap.data.head?

/-- `v` was moved out of the hole at `index`. -/
def upheap (cmp : α → α → Bool) (v : α) (data : List α) (index : ℕ) (h : index < data.length) :
    List α :=
  if h0 : 0 < index then
    have hp : parent index < data.length := (parent_lt h0).trans h
    if cmp data[parent index] v then
      upheap cmp v (data.set index data[parent index]) (parent index) (by simpa using hp)
    else data.set index v
  else data.set index v
termination_by index
decreasing_by exact parent_lt h0

/-- The child of `index` that `downheap` compares with when nothing is cached. -/
def pickChild (cmp : α → α → Bool) (data : List α) (index : ℕ)
    (h : 2 * index + 1 < data.length) : ℕ :=
  if hr : 2 * index + 2 < data.length then
    if cmp data[2 * index + 1] data[2 * index + 2] then 2 * index + 2 else 2 * index + 1
  else 2 * index + 1

theorem pickChild_isChild (cmp : α → α → Bool) (data : List α) (index : ℕ)
    (h : 2 * index + 1 < data.length) : IsChild (pickChild cmp data index h) index := by
  rw [isChild_iff]
  unfold pickChild
  repeat' split
  all_goals simp

theorem pickChild_lt (cmp : α → α → Bool) (data : List α) (index : ℕ)
    (h : 2 * index + 1 < data.length) : pickChild cmp data index h < data.length := by
  unfold pickChild
  repeat' split
  all_goals assumption

/-- The loop of `downheap` below the root. -/
def siftDown (cmp : α → α → Bool) (v : α) (data : List α) (index : ℕ) : List α :=
  if hl : 2 * index + 1 < data.length then
    have hc := pickChild_lt cmp data index hl
    if cmp v data[pickChild cmp data index hl] then
      siftDown cmp v (data.set index data[pickChild cmp data index hl])
        (pickChild cmp data index hl)
    else data.set index v
  else data.set index v
termination_by data.length - index
decreasing_by
  have hlt := (pickChild_isChild cmp data index hl).lt
  rw [List.length_set]
  omega

/-- The child of the root: the cached one if the heap still has it. -/
def rootChild (cmp : α → α → Bool) (cache : Option ℕ) (data : List α) (h : 1 < data.length) : ℕ :=
  match cache with
  | some child => if child < data.length then child else pickChild cmp data 0 h
  | none => pickChild cmp data 0 h

theorem rootChild_lt (cmp : α → α → Bool) (cache : Option ℕ) (data : List α)
    (h : 1 < data.length) : rootChild cmp cache data h < data.length := by
  unfold rootChild
  repeat' split
  · assumption
  all_goals exact pickChild_lt cmp data 0 h

/-- `downheap(get_root())`; only its first round reads the cache. -/
def downheap (cmp : α → α → Bool) (heap : BinaryHeap α) (v : α) : BinaryHeap α :=
  if hl : 1 < heap.data.length then
    have hc := rootChild_lt cmp heap.rootCmpCache heap.data hl
    let child := rootChild cmp heap.rootCmpCache heap.data hl
    if cmp v heap.data[child] then
      ⟨siftDown cmp v (heap.data.set 0 heap.data[child]) child, none⟩
    else ⟨heap.data.set 0 v, some child⟩
  else ⟨heap.data.set 0 v, none⟩

def push (cmp : α → α → Bool) (heap : BinaryHeap α) (v : α) : BinaryHeap α :=
  ⟨upheap cmp v (heap.data ++ [v]) heap.data.length (by simp), none⟩

def replaceTop (cmp : α → α → Bool) (heap : BinaryHeap α) (v : α) : BinaryHeap α :=
  heap.downheap cmp v

def pop (cmp : α → α → Bool) (heap : BinaryHeap α) : BinaryHeap α :=
  match heap.data.getLast? with
  | some last =>
    if 1 < heap.data.length then downheap cmp ⟨heap.data.dropLast, heap.rootCmpCache⟩ last
    else ⟨[], none⟩
  | none => heap

def clear (_ : BinaryHeap α) : BinaryHeap α := ⟨[], none⟩

/-! ### The sifts -/

variable {cmp : α → α → Bool} {v : α} {data : List α} {index : ℕ}

theorem upheap_isHeap (hcmp : StrictWeak cmp) (h : index < data.length)
    (hhole : UpHole cmp data index v) : IsHeap cmp (upheap cmp v data index h) := by
  fun_induction upheap cmp v data index h with
  | case1 data index h h0 hp hbelow ih =>
    exact ih (hhole.step hcmp h h0 (List.getElem?_eq_getElem hp) hbelow)
  | case2 data index h h0 hp hbelow =>
    refine hhole.fill h (fun _ a ha => ?_) hhole.above
    cases (List.getElem?_eq_getElem hp).symm.trans ha
    simpa using hbelow
  | case3 data index h h0 => exact hhole.fill h (fun hpos => absurd hpos h0) hhole.above

theorem upheap_perm (h : index < data.length) :
    (upheap cmp v data index h).Perm (data.set index v) := by
  fun_induction upheap cmp v data index h with
  | case1 data index h h0 hp hbelow ih => exact ih.trans (set_set_hole h hp (parent_lt h0).ne')
  | case2 => exact .rfl
  | case3 => exact .rfl

/-- `c` is a child of `index` and not below the other one. -/
def Best (cmp : α → α → Bool) (data : List α) (index c : ℕ) : Prop :=
  IsChild c index ∧ ∀ y ∈ data[c]?, ∀ i, IsChild i index → ∀ b ∈ data[i]?, cmp y b = false

theorem pickChild_best (hcmp : StrictWeak cmp) (h : 2 * index + 1 < data.length) :
    Best cmp data index (pickChild cmp data index h) := by
  refine ⟨pickChild_isChild cmp data index h, fun y hy i hi b hb => ?_⟩
  have hleft := List.getElem?_eq_getElem h
  unfold pickChild at hy
  rw [isChild_iff] at hi
  split at hy
  · next hr =>
    have hright := List.getElem?_eq_getElem hr
    split at hy
    · next hlt =>
      cases hright.symm.trans hy
      rcases hi with rfl | rfl
      · cases hleft.symm.trans hb
        exact hcmp.asymm hlt
      · cases hright.symm.trans hb
        exact hcmp.irrefl _
    · next hlt =>
      cases hleft.symm.trans hy
      rcases hi with rfl | rfl
      · cases hleft.symm.trans hb
        exact hcmp.irrefl _
      · cases hright.symm.trans hb
        simpa using hlt
  · next hr =>
    cases hleft.symm.trans hy
    rcases hi with rfl | rfl
    · cases hleft.symm.trans hb
      exact hcmp.irrefl _
    · exact absurd (List.getElem?_eq_some_iff.mp hb).1 hr

theorem not_isChild_of_length (h : ¬ 2 * index + 1 < data.length) :
    ∀ i, IsChild i index → ∀ b ∈ data[i]?, cmp v b = false := by
  intro i hi b hb
  have hlt := (List.getElem?_eq_some_iff.mp hb).1
  rw [isChild_iff] at hi
  omega

theorem siftDown_isHeap (hcmp : StrictWeak cmp) (h : index < data.length)
    (hhole : DownHole cmp data index v) : IsHeap cmp (siftDown cmp v data index) := by
  fun_induction siftDown cmp v data index with
  | case1 data index hl hc hbelow ih =>
    have hbest := pickChild_best hcmp hl
    have hy := List.getElem?_eq_getElem hc
    exact ih (by simpa using hc) (hhole.step hcmp h hbest.1 hy (hbest.2 _ hy) hbelow)
  | case2 data index hl hc hbelow =>
    have hbest := pickChild_best hcmp hl
    refine hhole.fill h hhole.under fun i hi b hb => ?_
    have hvc : cmp v data[pickChild cmp data index hl] = false := by simpa using hbelow
    exact hcmp.negTrans hvc (hbest.2 _ (List.getElem?_eq_getElem hc) i hi b hb)
  | case3 data index hl => exact hhole.fill h hhole.under (not_isChild_of_length hl)

theorem siftDown_perm (h : index < data.length) :
    (siftDown cmp v data index).Perm (data.set index v) := by
  fun_induction siftDown cmp v data index with
  | case1 data index hl hc hbelow ih =>
    have hne := (pickChild_isChild cmp data index hl).lt.ne
    exact (ih (by simpa using hc)).trans (set_set_hole h hc hne)
  | case2 => exact .rfl
  | case3 => exact .rfl

/-! ### The heap -/

structure WellFormed (cmp : α → α → Bool) (heap : BinaryHeap α) : Prop where
  isHeap : IsHeap cmp heap.data
  cache : ∀ c ∈ heap.rootCmpCache, c < heap.data.length → Best cmp heap.data 0 c

theorem empty_wellFormed (cmp : α → α → Bool) : (empty : BinaryHeap α).WellFormed cmp :=
  ⟨fun i _ a ha => by simp [empty] at ha, fun c hc => by cases hc⟩

variable {heap : BinaryHeap α}

theorem WellFormed.top_max (hcmp : StrictWeak cmp) (hwf : heap.WellFormed cmp) {a : α}
    (ha : heap.top = some a) : ∀ b ∈ heap.data, cmp a b = false :=
  hwf.isHeap.root hcmp (by rwa [top, List.head?_eq_getElem?] at ha)

theorem rootChild_best (hcmp : StrictWeak cmp) (hl : 1 < data.length) {cache : Option ℕ}
    (hcache : ∀ c ∈ cache, c < data.length → Best cmp data 0 c) :
    Best cmp data 0 (rootChild cmp cache data hl) := by
  unfold rootChild
  split
  · split
    · next hlt => exact hcache _ rfl hlt
    · exact pickChild_best hcmp hl
  · exact pickChild_best hcmp hl

/-- The root may be overwritten by any value. -/
theorem rootHole (h : IsHeap cmp data) (v : α) : DownHole cmp data 0 v :=
  ⟨⟨fun i hi _ _ => h i hi, fun h0 => absurd h0 (lt_irrefl 0)⟩, fun h0 => absurd h0 (lt_irrefl 0)⟩

theorem set_zero_perm {a : α} {rest : List α} (hdata : data = a :: rest) :
    (data.set 0 v).Perm (v :: rest) := by
  rw [hdata, List.set_cons_zero]

/-- A heap with a hole at its root and a cache that is right, given a new value. -/
theorem downheap_spec (hcmp : StrictWeak cmp) (hwf : heap.WellFormed cmp) (v : α) {a : α}
    {rest : List α} (hdata : heap.data = a :: rest) :
    (heap.downheap cmp v).WellFormed cmp ∧ (heap.downheap cmp v).data.Perm (v :: rest) := by
  have hhole := rootHole hwf.isHeap v
  have hpos : 0 < heap.data.length := by simp [hdata]
  have hperm := set_zero_perm (v := v) hdata
  unfold downheap
  split
  · next hl =>
    have hc := rootChild_lt cmp heap.rootCmpCache heap.data hl
    have hbest := rootChild_best hcmp hl hwf.cache
    have hy := List.getElem?_eq_getElem hc
    dsimp only
    split
    · next hbelow =>
      have hstep := hhole.step hcmp hpos hbest.1 hy (hbest.2 _ hy) hbelow
      have hlen : rootChild cmp heap.rootCmpCache heap.data hl <
          (heap.data.set 0 heap.data[rootChild cmp heap.rootCmpCache heap.data hl]).length := by
        simpa using hc
      refine ⟨⟨siftDown_isHeap hcmp hlen hstep, fun c hc => by cases hc⟩, ?_⟩
      exact ((siftDown_perm hlen).trans (set_set_hole hpos hc hbest.1.lt.ne)).trans hperm
    · next hbelow =>
      have hvc : cmp v heap.data[rootChild cmp heap.rootCmpCache heap.data hl] = false := by
        simpa using hbelow
      refine ⟨⟨hhole.fill hpos hhole.under fun i hi b hb => ?_, fun c hcache _ => ?_⟩, hperm⟩
      · exact hcmp.negTrans hvc (hbest.2 _ hy i hi b hb)
      · -- only the root changed
        cases hcache
        refine ⟨hbest.1, fun y hy i hi b hb => ?_⟩
        rw [getElem?_set_of_ne hbest.1.lt.ne'] at hy
        rw [getElem?_set_of_ne hi.lt.ne'] at hb
        exact hbest.2 y hy i hi b hb
  · next hl =>
    refine ⟨⟨hhole.fill hpos hhole.under (not_isChild_of_length hl), fun c hc => ?_⟩, hperm⟩
    cases hc

theorem getElem?_dropLast {i : ℕ} {b : α} (hb : b ∈ data.dropLast[i]?) : b ∈ data[i]? := by
  have hlt := (List.getElem?_eq_some_iff.mp hb).1
  rw [List.getElem?_dropLast] at hb
  split at hb
  · exact hb
  · cases hb

/-- The last element leaves a heap with a cache that is still right. -/
theorem WellFormed.dropLast (hwf : heap.WellFormed cmp) :
    (⟨heap.data.dropLast, heap.rootCmpCache⟩ : BinaryHeap α).WellFormed cmp := by
  refine ⟨fun i hi a ha b hb => ?_, fun c hc hlt => ?_⟩
  · exact hwf.isHeap i hi a (getElem?_dropLast ha) b (getElem?_dropLast hb)
  · have hlt' : c < heap.data.dropLast.length := hlt
    rw [List.length_dropLast] at hlt'
    obtain ⟨hchild, hbest⟩ := hwf.cache c hc (by omega)
    refine ⟨hchild, fun y hy i hi b hb => ?_⟩
    exact hbest y (getElem?_dropLast hy) i hi b (getElem?_dropLast hb)

/-! ### The operations -/

/-- The place of a new element has no children. -/
theorem getElem?_concat_of_lt {i : ℕ} (hi : heap.data.length < i) :
    (heap.data ++ [v])[i]? = none := by
  rw [List.getElem?_eq_none_iff, List.length_append, List.length_singleton]
  exact hi

theorem push_wellFormed (hcmp : StrictWeak cmp) (hwf : heap.WellFormed cmp) (v : α) :
    (heap.push cmp v).WellFormed cmp := by
  refine ⟨upheap_isHeap hcmp _ ⟨⟨fun i hi hne hpar a ha b hb => ?_, fun hpos i hi a ha b hb => ?_⟩,
    fun i hi b hb => ?_⟩, fun c hc => by cases hc⟩
  · rcases lt_or_gt_of_ne hne with hlt | hgt
    · rw [List.getElem?_append_left ((parent_lt hi).trans hlt)] at ha
      rw [List.getElem?_append_left hlt] at hb
      exact hwf.isHeap i hi a ha b hb
    · rw [getElem?_concat_of_lt hgt] at hb
      cases hb
  · rw [getElem?_concat_of_lt hi.lt] at hb
    cases hb
  · rw [getElem?_concat_of_lt hi.lt] at hb
    cases hb

theorem push_perm (v : α) : (heap.push cmp v).data.Perm (v :: heap.data) := by
  refine (upheap_perm _).trans ?_
  simp

theorem replaceTop_spec (hcmp : StrictWeak cmp) (hwf : heap.WellFormed cmp) (v : α) {a : α}
    {rest : List α} (hdata : heap.data = a :: rest) :
    (heap.replaceTop cmp v).WellFormed cmp ∧ (heap.replaceTop cmp v).data.Perm (v :: rest) :=
  downheap_spec hcmp hwf v hdata

theorem pop_spec (hcmp : StrictWeak cmp) (hwf : heap.WellFormed cmp) {a : α} {rest : List α}
    (hdata : heap.data = a :: rest) :
    (heap.pop cmp).WellFormed cmp ∧ (heap.pop cmp).data.Perm rest := by
  have hdrop := hwf.dropLast
  unfold pop
  rw [hdata] at hdrop ⊢
  rcases List.eq_nil_or_concat rest with rfl | ⟨mid, last, rfl⟩
  · exact ⟨empty_wellFormed cmp, .nil⟩
  · have hlast : (a :: (mid ++ [last])).getLast? = some last := by
      rw [← List.cons_append, List.getLast?_concat]
    have hmid : (a :: (mid ++ [last])).dropLast = a :: mid := by
      rw [← List.cons_append, List.dropLast_concat]
    rw [List.concat_eq_append] at hdrop ⊢
    rw [hmid] at hdrop ⊢
    rw [hlast]
    simp only
    rw [if_pos (by simp)]
    obtain ⟨hwf', hperm⟩ := downheap_spec hcmp hdrop last rfl
    exact ⟨hwf', hperm.trans (List.perm_append_singleton last mid).symm⟩

/-! ### Whole runs -/

inductive Op (α : Type*)
  | push (v : α)
  | replaceTop (v : α)
  | pop
  | clear

/-- `none` where `assert(!empty())` fails. -/
def step (cmp : α → α → Bool) (heap : BinaryHeap α) : Op α → Option (BinaryHeap α)
  | .push v => some (heap.push cmp v)
  | .replaceTop v => if heap.data.isEmpty then none else some (heap.replaceTop cmp v)
  | .pop => if heap.data.isEmpty then none else some (heap.pop cmp)
  | .clear => some heap.clear

/-- What a priority queue may hold after some operations: those on the top take out an
element that is not below any other. -/
inductive Queue (cmp : α → α → Bool) : List (Op α) → Multiset α → Prop
  | empty : Queue cmp [] 0
  | push {ops m} (v) (h : Queue cmp ops m) : Queue cmp (ops ++ [.push v]) (v ::ₘ m)
  | replaceTop {ops m a} (v) (h : Queue cmp ops (a ::ₘ m)) (hmax : ∀ b ∈ m, cmp a b = false) :
      Queue cmp (ops ++ [.replaceTop v]) (v ::ₘ m)
  | pop {ops m a} (h : Queue cmp ops (a ::ₘ m)) (hmax : ∀ b ∈ m, cmp a b = false) :
      Queue cmp (ops ++ [.pop]) m
  | clear {ops m} (h : Queue cmp ops m) : Queue cmp (ops ++ [.clear]) 0

theorem WellFormed.max_of_cons (hcmp : StrictWeak cmp) (hwf : heap.WellFormed cmp) {a : α}
    {rest : List α} (hdata : heap.data = a :: rest) : ∀ b ∈ (rest : Multiset α), cmp a b = false :=
  fun b hb => hwf.top_max hcmp (by rw [top, hdata]; rfl) b
    (by rw [hdata]; exact List.mem_cons_of_mem a (Multiset.mem_coe.mp hb))

theorem Queue.step (hcmp : StrictWeak cmp) {ops : List (Op α)} {op : Op α}
    {heap' : BinaryHeap α} (hwf : heap.WellFormed cmp) (hq : Queue cmp ops heap.data)
    (h : heap.step cmp op = some heap') :
    heap'.WellFormed cmp ∧ Queue cmp (ops ++ [op]) heap'.data := by
  cases op with
  | push v =>
    cases h
    refine ⟨push_wellFormed hcmp hwf v, ?_⟩
    rw [Multiset.coe_eq_coe.mpr (push_perm v)]
    exact .push v hq
  | replaceTop v =>
    change (if heap.data.isEmpty then none else some (heap.replaceTop cmp v)) = some heap' at h
    split at h
    · cases h
    · next hne =>
      obtain ⟨a, rest, hdata⟩ := List.exists_cons_of_ne_nil (by simpa using hne)
      cases h
      obtain ⟨hwf', hperm⟩ := replaceTop_spec hcmp hwf v hdata
      refine ⟨hwf', ?_⟩
      rw [Multiset.coe_eq_coe.mpr hperm]
      rw [hdata] at hq
      exact .replaceTop v hq (hwf.max_of_cons hcmp hdata)
  | pop =>
    change (if heap.data.isEmpty then none else some (heap.pop cmp)) = some heap' at h
    split at h
    · cases h
    · next hne =>
      obtain ⟨a, rest, hdata⟩ := List.exists_cons_of_ne_nil (by simpa using hne)
      cases h
      obtain ⟨hwf', hperm⟩ := pop_spec hcmp hwf hdata
      refine ⟨hwf', ?_⟩
      rw [Multiset.coe_eq_coe.mpr hperm]
      rw [hdata] at hq
      exact .pop hq (hwf.max_of_cons hcmp hdata)
  | clear =>
    cases h
    exact ⟨empty_wellFormed cmp, .clear hq⟩

theorem run_queue (hcmp : StrictWeak cmp) {ops : List (Op α)}
    (h : Exec.exec (step cmp) empty ops = some heap) :
    heap.WellFormed cmp ∧ Queue cmp ops heap.data := by
  induction ops using List.reverseRecOn generalizing heap with
  | nil =>
    cases h
    exact ⟨empty_wellFormed cmp, .empty⟩
  | append_singleton ops op ih =>
    obtain ⟨mid, hmid, hlast⟩ := Exec.exec_append.mp h
    obtain ⟨last, hlast, hnil⟩ := Exec.exec_cons.mp hlast
    cases hnil
    obtain ⟨hwf, hq⟩ := ih hmid
    exact hq.step hcmp hwf hlast

/-- Whatever operations led to a heap, it holds what a priority queue holds after them, and
no element is above its top. -/
theorem run_refines_queue (cmp : α → α → Bool) (hcmp : StrictWeak cmp) (ops : List (Op α))
    (heap : BinaryHeap α) (h : Exec.exec (step cmp) empty ops = some heap) :
    Queue cmp ops heap.data ∧ ∀ a, heap.top = some a → ∀ b ∈ heap.data, cmp a b = false := by
  obtain ⟨hwf, hq⟩ := run_queue hcmp h
  exact ⟨hq, fun a ha => hwf.top_max hcmp ha⟩

def sampleOps : List (Op ℕ) :=
  [.push 9, .clear, .push 3, .push 8, .push 5, .replaceTop 6, .replaceTop 4, .pop]

theorem natLess_strictWeak : StrictWeak (fun a b : ℕ => decide (a < b)) :=
  ⟨fun h => by simp at h ⊢; omega, fun h h' => by simp at h h' ⊢; omega⟩

-- the second replacement finds the cache that the first one left
theorem run_refines_queue_sample :
    Queue (fun a b => decide (a < b)) sampleOps ([4, 3] : List ℕ) ∧
      ∀ a, (⟨[4, 3], some 1⟩ : BinaryHeap ℕ).top = some a → ∀ b ∈ [4, 3], decide (a < b) = false :=
  run_refines_queue _ natLess_strictWeak sampleOps ⟨[4, 3], some 1⟩ (by decide +kernel)

end BinaryHeap

end PnmCompaction.Merge
