import Mathlib.Data.List.Sort

/-!
# Heap order on a list with a hole

The children of position `i` are `2 * i + 1` and `2 * i + 2`. A sift moves one value along a
path and writes it once, at the end; until then its place is a hole. `UpHole` and `DownHole`
say what such a list must satisfy so that the value can go on up or down, or be written.
-/

namespace PnmCompaction.Lib

variable {α : Type*}

/-- What a comparison must satisfy; `lt a b` says that `a` belongs below `b`. -/
structure StrictWeak (lt : α → α → Bool) : Prop where
  asymm : ∀ {a b}, lt a b = true → lt b a = false
  negTrans : ∀ {a b c}, lt a b = false → lt b c = false → lt a c = false

theorem StrictWeak.irrefl {lt : α → α → Bool} (h : StrictWeak lt) (a : α) : lt a a = false := by
  by_contra htrue
  have htrue : lt a a = true := by simpa using htrue
  rw [h.asymm htrue] at htrue
  cases htrue

def parent (i : ℕ) : ℕ := (i - 1) / 2

def IsChild (i p : ℕ) : Prop := 0 < i ∧ parent i = p

theorem isChild_iff {i p : ℕ} : IsChild i p ↔ i = 2 * p + 1 ∨ i = 2 * p + 2 := by
  unfold IsChild parent
  omega

theorem parent_lt {i : ℕ} (h : 0 < i) : parent i < i := by
  unfold parent
  omega

theorem IsChild.lt {i p : ℕ} (h : IsChild i p) : p < i :=
  h.2 ▸ parent_lt h.1

variable {lt : α → α → Bool} {l : List α} {hole i : ℕ} {v : α}

/-- The values at `p` and `i`, if there are such, are in order. -/
def InOrder (lt : α → α → Bool) (l : List α) (p i : ℕ) : Prop :=
  ∀ a ∈ l[p]?, ∀ b ∈ l[i]?, lt a b = false

def IsHeap (lt : α → α → Bool) (l : List α) : Prop :=
  ∀ i, 0 < i → InOrder lt l (parent i) i

theorem IsHeap.root (hlt : StrictWeak lt) (h : IsHeap lt l) {a : α} (ha : a ∈ l[0]?) :
    ∀ b ∈ l, lt a b = false := by
  -- up the path of parents to the root
  have hall : ∀ i : ℕ, ∀ b ∈ l[i]?, lt a b = false := by
    intro i
    induction i using Nat.strong_induction_on with
    | _ i ih =>
      intro b hb
      rcases Nat.eq_zero_or_pos i with rfl | hpos
      · cases ha.symm.trans hb
        exact hlt.irrefl a
      · have hlen : parent i < l.length :=
          (parent_lt hpos).trans (List.getElem?_eq_some_iff.mp hb).1
        have hpar := ih (parent i) (parent_lt hpos) l[parent i] (List.getElem?_eq_getElem hlen)
        exact hlt.negTrans hpar (h i hpos _ (List.getElem?_eq_getElem hlen) b hb)
  intro b hb
  obtain ⟨i, hi, rfl⟩ := List.mem_iff_getElem.mp hb
  exact hall i _ (List.getElem?_eq_getElem hi)

/-- Every parent and child are in order, also across the hole. -/
structure Holed (lt : α → α → Bool) (l : List α) (hole : ℕ) : Prop where
  away : ∀ i, 0 < i → i ≠ hole → parent i ≠ hole → InOrder lt l (parent i) i
  across : 0 < hole → ∀ i, IsChild i hole → InOrder lt l (parent hole) i

/-- The value `v` may be written to the hole or above it. -/
structure UpHole (lt : α → α → Bool) (l : List α) (hole : ℕ) (v : α) : Prop
    extends Holed lt l hole where
  above : ∀ i, IsChild i hole → ∀ b ∈ l[i]?, lt v b = false

/-- The value `v` may be written to the hole or below it. -/
structure DownHole (lt : α → α → Bool) (l : List α) (hole : ℕ) (v : α) : Prop
    extends Holed lt l hole where
  under : 0 < hole → ∀ a ∈ l[parent hole]?, lt a v = false

theorem mem_set_self (h : hole < l.length) {a : α} : a ∈ (l.set hole v)[hole]? ↔ a = v := by
  rw [List.getElem?_set_self h]
  exact Option.mem_some_iff.trans eq_comm

theorem getElem?_set_of_ne (h : i ≠ hole) : (l.set hole v)[i]? = l[i]? :=
  List.getElem?_set_ne h.symm

theorem inOrder_set_of_ne {p : ℕ} (hp : p ≠ hole) (hi : i ≠ hole) (h : InOrder lt l p i) :
    InOrder lt (l.set hole v) p i := by
  unfold InOrder
  rwa [getElem?_set_of_ne hp, getElem?_set_of_ne hi]

/-- Writing `v` where it belongs. -/
theorem Holed.fill (h : Holed lt l hole) (hlen : hole < l.length)
    (hup : 0 < hole → ∀ a ∈ l[parent hole]?, lt a v = false)
    (hdown : ∀ i, IsChild i hole → ∀ b ∈ l[i]?, lt v b = false) : IsHeap lt (l.set hole v) := by
  intro i hpos
  have hlt := parent_lt hpos
  by_cases hi : i = hole
  · subst hi
    intro a ha b hb
    rw [getElem?_set_of_ne hlt.ne] at ha
    rw [(mem_set_self hlen).mp hb]
    exact hup hpos a ha
  by_cases hp : parent i = hole
  · intro a ha b hb
    rw [hp] at ha
    rw [getElem?_set_of_ne hi] at hb
    rw [(mem_set_self hlen).mp ha]
    exact hdown i ⟨hpos, hp⟩ b hb
  · exact inOrder_set_of_ne hp hi (h.away i hpos hi hp)

/-- The parent's value comes down into the hole. -/
theorem UpHole.step (hlt : StrictWeak lt) (h : UpHole lt l hole v) (hlen : hole < l.length)
    (hpos : 0 < hole) {p : α} (hp : p ∈ l[parent hole]?) (hbelow : lt p v = true) :
    UpHole lt (l.set hole p) (parent hole) v := by
  have hlow := parent_lt hpos
  have hvp : lt v p = false := hlt.asymm hbelow
  -- what was below the parent is below `p`
  have hchild : ∀ i, IsChild i (parent hole) → ∀ b ∈ (l.set hole p)[i]?, lt p b = false := by
    intro i hi b hb
    by_cases hih : i = hole
    · subst hih
      rw [(mem_set_self hlen).mp hb]
      exact hlt.irrefl p
    · rw [getElem?_set_of_ne hih] at hb
      have hord := h.away i hi.1 hih (by rw [hi.2]; exact hlow.ne)
      rw [hi.2] at hord
      exact hord p hp b hb
  refine ⟨⟨fun i hi hne hpar => ?_, fun hpp i hi a ha b hb => ?_⟩, fun i hi b hb => ?_⟩
  · by_cases hih : i = hole
    · exact absurd (hih ▸ rfl) hpar
    by_cases hph : parent i = hole
    · intro a ha b hb
      rw [hph] at ha
      rw [getElem?_set_of_ne hih] at hb
      rw [(mem_set_self hlen).mp ha]
      exact h.across hpos i ⟨hi, hph⟩ p hp b hb
    · exact inOrder_set_of_ne hph hih (h.away i hi hih hph)
  · rw [getElem?_set_of_ne ((parent_lt hpp).trans hlow).ne] at ha
    have hord := h.away (parent hole) hpp hlow.ne ((parent_lt hpp).trans hlow).ne
    exact hlt.negTrans (hord a ha p hp) (hchild i hi b hb)
  · exact hlt.negTrans hvp (hchild i hi b hb)

/-- The greater child's value goes up into the hole. -/
theorem DownHole.step (hlt : StrictWeak lt) (h : DownHole lt l hole v) (hlen : hole < l.length)
    {c : ℕ} (hc : IsChild c hole) {y : α} (hy : y ∈ l[c]?)
    (hbest : ∀ i, IsChild i hole → ∀ b ∈ l[i]?, lt y b = false) (hbelow : lt v y = true) :
    DownHole lt (l.set hole y) c v := by
  have hch := hc.lt
  refine ⟨⟨fun i hi hne hpar => ?_, fun _ i hi a ha b hb => ?_⟩, fun _ a ha => ?_⟩
  · by_cases hih : i = hole
    · subst hih
      intro a ha b hb
      rw [getElem?_set_of_ne (parent_lt hi).ne] at ha
      rw [(mem_set_self hlen).mp hb]
      exact h.across hi c hc a ha y hy
    by_cases hph : parent i = hole
    · intro a ha b hb
      rw [hph] at ha
      rw [getElem?_set_of_ne hih] at hb
      rw [(mem_set_self hlen).mp ha]
      exact hbest i ⟨hi, hph⟩ b hb
    · exact inOrder_set_of_ne hph hih (h.away i hi hih hph)
  · rw [hc.2, mem_set_self hlen] at ha
    rw [getElem?_set_of_ne (hch.trans hi.lt).ne'] at hb
    have hord := h.away i hi.1 (hch.trans hi.lt).ne' (by rw [hi.2]; exact hch.ne')
    rw [hi.2] at hord
    rw [ha]
    exact hord y hy b hb
  · rw [hc.2, mem_set_self hlen] at ha
    rw [ha]
    exact hlt.asymm hbelow

/-- Moving a value into the hole moves the hole. -/
theorem set_set_hole {j : ℕ} (hi : i < l.length) (hj : j < l.length) (hne : i ≠ j) :
    ((l.set i l[j]).set j v).Perm (l.set i v) := by
  have hi' : i < (l.set i v).length := by simpa using hi
  have hj' : j < (l.set i v).length := by simpa using hj
  have hswap := List.set_set_perm hi' hj'
  simpa [List.getElem_set_ne hne, List.set_set] using hswap

end PnmCompaction.Lib
