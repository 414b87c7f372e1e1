import Mathlib.Data.List.Basic
import Mathlib.Data.List.Find
import Mathlib.Data.List.Forall2
import Mathlib.Data.Option.Basic

/-!
# Reading a list of versions

Versions of keys, each with a stamp, are kept newest first. A reader at stamp `s` is
answered by the first version of its key that is not newer than `s`; what that version
says may depend on `s` as well, and it may say that there is nothing. The lemmas say which
versions can be left out, put in or replaced without any reader noticing.
-/

namespace PnmCompaction.Lib

structure Versions (α K β : Type*) where
  key : α → K
  stamp : α → ℕ
  answer : α → ℕ → Option β

namespace Versions

variable {α K β : Type*} [DecidableEq K] (V : Versions α K β)

def Visible (k : K) (s : ℕ) (x : α) : Prop := V.key x = k ∧ V.stamp x ≤ s

instance (k : K) (s : ℕ) : DecidablePred (V.Visible k s) :=
  fun x => inferInstanceAs (Decidable (V.key x = k ∧ V.stamp x ≤ s))

def newest (k : K) (s : ℕ) (l : List α) : Option α := l.find? fun x => decide (V.Visible k s x)

def read (k : K) (s : ℕ) (l : List α) : Option β := (V.newest k s l).bind fun x => V.answer x s

variable {V} {k : K} {s : ℕ} {x : α} {a b d : List α}

theorem newest_eq_none_iff : V.newest k s a = none ↔ ∀ x ∈ a, ¬ V.Visible k s x := by
  simp [newest]

/-- In a list in which newer versions come first no visible version has a larger stamp
than the one that is found. -/
theorem newest_stamp_le (hsorted : a.Pairwise fun y z => V.key y = V.key z → V.stamp z ≤ V.stamp y)
    (hx : V.newest k s a = some x) {y : α} (hy : y ∈ a) (hvis : V.Visible k s y) :
    V.stamp y ≤ V.stamp x := by
  obtain ⟨hfound, pre, post, rfl, hpre⟩ := List.find?_eq_some_iff_append.mp hx
  have hvisx : V.Visible k s x := of_decide_eq_true hfound
  rcases List.mem_append.mp hy with hy | hy
  · exact absurd hvis (by simpa using hpre y hy)
  rcases List.mem_cons.mp hy with rfl | hy
  · exact le_rfl
  · have hrest := (List.pairwise_cons.mp (List.pairwise_append.mp hsorted).2.1).1 y hy
    exact hrest (hvisx.1.trans hvis.1.symm)

theorem newest_append (a b : List α) :
    V.newest k s (a ++ b) = (V.newest k s a).or (V.newest k s b) :=
  List.find?_append

theorem read_append_of_visible (h : ∃ y ∈ a, V.Visible k s y) (b : List α) :
    V.read k s (a ++ b) = V.read k s a := by
  obtain ⟨y, hy, hvis⟩ := h
  obtain ⟨x, hx⟩ : ∃ x, V.newest k s a = some x := by
    refine Option.ne_none_iff_exists'.mp fun hnone => ?_
    exact newest_eq_none_iff.mp hnone y hy hvis
  rw [read, read, newest_append, hx]
  rfl

theorem read_append_of_not_visible (h : ∀ y ∈ a, ¬ V.Visible k s y) (b : List α) :
    V.read k s (a ++ b) = V.read k s b := by
  rw [read, newest_append, newest_eq_none_iff.mpr h]
  rfl

theorem read_cons_of_visible (h : V.Visible k s x) (b : List α) :
    V.read k s (x :: b) = V.answer x s := by
  rw [read, newest, List.find?_cons_of_pos (by simpa using h)]
  rfl

theorem read_cons_of_not_visible (h : ¬ V.Visible k s x) (b : List α) :
    V.read k s (x :: b) = V.read k s b :=
  read_append_of_not_visible (a := [x]) (by simpa using h) b

theorem read_eq_none (h : ∀ x ∈ a, V.Visible k s x → V.answer x s = none) :
    V.read k s a = none := by
  rw [read]
  cases hx : V.newest k s a with
  | none => rfl
  | some x =>
    have hvis : V.Visible k s x := by simpa using List.find?_some hx
    exact h x (List.mem_of_find?_eq_some hx) hvis

/-- Two lists in front of which a visible version stands, or that read alike. -/
theorem read_append_congr
    (h : (∃ y ∈ a, V.Visible k s y) ∨ V.read k s b = V.read k s d) :
    V.read k s (a ++ b) = V.read k s (a ++ d) := by
  by_cases hvis : ∃ y ∈ a, V.Visible k s y
  · rw [read_append_of_visible hvis, read_append_of_visible hvis]
  · have hnone : ∀ y ∈ a, ¬ V.Visible k s y := fun y hy hv => hvis ⟨y, hy, hv⟩
    rw [read_append_of_not_visible hnone, read_append_of_not_visible hnone]
    exact h.resolve_left hvis

theorem newest_filter {p : α → Bool} (h : ∀ x ∈ b, p x = false → ¬ V.Visible k s x) :
    V.newest k s (b.filter p) = V.newest k s b := by
  rw [newest, newest, List.find?_filter]
  refine List.find?_congr fun x hx => ?_
  cases hpx : p x with
  | true => simp
  | false => simp [h x hx hpx]

/-- Versions that are seen only together with one in front of them can be left out. -/
theorem read_filter {p : α → Bool}
    (h : ∀ x ∈ b, p x = false → V.Visible k s x → ∃ y ∈ a, V.Visible k s y) (d : List α) :
    V.read k s (a ++ (b.filter p ++ d)) = V.read k s (a ++ (b ++ d)) := by
  refine read_append_congr ?_
  by_cases hvis : ∃ y ∈ a, V.Visible k s y
  · exact .inl hvis
  · right
    rw [read, read, newest_append, newest_append,
      newest_filter fun x hx hpx hv => hvis (h x hx hpx hv)]

/-- A version can be left out when one in front of it answers, or when neither it nor
what comes after it says anything. -/
theorem read_drop (h : V.Visible k s x → (∃ y ∈ a, V.Visible k s y) ∨
      V.answer x s = none ∧ V.read k s b = none) :
    V.read k s (a ++ b) = V.read k s (a ++ x :: b) := by
  refine read_append_congr ?_
  by_cases hx : V.Visible k s x
  · refine (h hx).imp_right fun ⟨hans, hrest⟩ => ?_
    rw [read_cons_of_visible hx, hans, hrest]
  · exact .inr (read_cons_of_not_visible hx b).symm

theorem read_append_hidden (h : ∀ x ∈ b, V.Visible k s x → ∃ y ∈ a, V.Visible k s y)
    (d : List α) : V.read k s (a ++ d) = V.read k s (a ++ (b ++ d)) := by
  refine read_append_congr ?_
  by_cases hvis : ∃ y ∈ a, V.Visible k s y
  · exact .inl hvis
  · exact .inr (read_append_of_not_visible (fun x hx hv => hvis (h x hx hv)) d).symm

/-- A reader that sees every version of its key is answered by the first one. -/
theorem read_eq_head (h : ∀ x ∈ a, V.key x = k → V.stamp x ≤ s) :
    V.read k s a = ((a.filter fun x => V.key x = k).head?).bind fun x => V.answer x s := by
  rw [read, newest, List.head?_filter]
  congr 1
  refine List.find?_congr fun x hx => ?_
  exact decide_eq_decide.mpr ⟨fun hv => hv.1, fun hk => ⟨hk, h x hx hk⟩⟩

/-- A version can be replaced by one that is seen by the same readers and says the same. -/
theorem newest_forall₂ {R : α → α → Prop} (hall : List.Forall₂ R a b)
    (hvis : ∀ x y, R x y → (V.Visible k s x ↔ V.Visible k s y)) :
    Option.Rel R (V.newest k s a) (V.newest k s b) := by
  induction hall with
  | nil => exact .none
  | @cons x y xs ys hxy _ ih =>
    rw [newest, newest, List.find?_cons, List.find?_cons, decide_eq_decide.mpr (hvis x y hxy)]
    cases decide (V.Visible k s y) with
    | true => exact .some hxy
    | false => exact ih

end Versions

end PnmCompaction.Lib
