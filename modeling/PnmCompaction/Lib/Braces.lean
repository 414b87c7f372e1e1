import Mathlib.Data.List.Basic

/-!
# Matching braces

`matching` looks for the brace that closes the ones already open and cuts the
text there. `Balanced` texts close every brace they open, so `matching` runs
through them.
-/

namespace PnmCompaction.Lib.Braces

variable {α : Type*} [DecidableEq α]

section Matching

variable (o c : α)

/-- The text before the brace that closes `depth + 1` open ones, and the text after it. -/
def matching : ℕ → List α → Option (List α × List α)
  | _, [] => none
  | depth, x :: s =>
    if x = o then (matching (depth + 1) s).map fun p => (x :: p.1, p.2)
    else if x = c then
      if depth = 0 then some ([], s)
      else (matching (depth - 1) s).map fun p => (x :: p.1, p.2)
    else (matching depth s).map fun p => (x :: p.1, p.2)

inductive Balanced : List α → Prop
  | nil : Balanced []
  | plain {x : α} {s : List α} : x ≠ o → x ≠ c → Balanced s → Balanced (x :: s)
  | braces {s t : List α} : Balanced s → Balanced t → Balanced (o :: (s ++ c :: t))

end Matching

variable {o c : α} {s t : List α}

omit [DecidableEq α] in
theorem Balanced.of_forall (h : ∀ x ∈ s, x ≠ o ∧ x ≠ c) : Balanced o c s := by
  induction s with
  | nil => exact .nil
  | cons x s ih =>
    obtain ⟨ho, hc⟩ := h x (by simp)
    exact .plain ho hc (ih fun y hy => h y (by simp [hy]))

omit [DecidableEq α] in
theorem Balanced.append (hs : Balanced o c s) (ht : Balanced o c t) : Balanced o c (s ++ t) := by
  induction hs with
  | nil => exact ht
  | plain ho hc _ ih => exact .plain ho hc ih
  | @braces s₁ s₂ h₁ _ _ ih =>
    rw [List.cons_append, List.append_assoc, List.cons_append]
    exact .braces h₁ ih

omit [DecidableEq α] in
theorem Balanced.wrap (hs : Balanced o c s) : Balanced o c (o :: (s ++ [c])) :=
  .braces hs .nil

/-- A balanced text does not change the depth. -/
theorem matching_append (hoc : o ≠ c) (hs : Balanced o c s) (depth : ℕ) (t : List α) :
    matching o c depth (s ++ t) = (matching o c depth t).map fun p => (s ++ p.1, p.2) := by
  induction hs generalizing depth t with
  | nil => simp
  | @plain x s ho hc _ ih =>
    rw [List.cons_append, matching, if_neg ho, if_neg hc, ih, Option.map_map]
    rfl
  | @braces s₁ s₂ _ _ ih₁ ih₂ =>
    rw [List.cons_append, List.append_assoc, List.cons_append, matching, if_pos rfl, ih₁,
      matching, if_neg hoc.symm, if_pos rfl, if_neg (Nat.succ_ne_zero depth),
      Nat.add_sub_cancel, ih₂]
    simp only [Option.map_map]
    congr 1
    funext p
    simp

theorem matching_closed (hoc : o ≠ c) (hs : Balanced o c s) (t : List α) :
    matching o c 0 (s ++ c :: t) = some (s, t) := by
  rw [matching_append hoc hs, matching, if_neg hoc.symm, if_pos rfl, if_pos rfl]
  simp

theorem matching_length {depth : ℕ} {before after : List α}
    (h : matching o c depth s = some (before, after)) : after.length < s.length := by
  induction s generalizing depth before after with
  | nil => cases h
  | cons x s ih =>
    have hrec : ∀ d, (matching o c d s).map (fun p => (x :: p.1, p.2)) = some (before, after) →
        after.length < (x :: s).length := by
      intro d hd
      obtain ⟨⟨b, a⟩, hp, heq⟩ := Option.map_eq_some_iff.mp hd
      obtain ⟨-, rfl⟩ := Prod.mk.inj heq
      exact Nat.lt_succ_of_lt (ih hp)
    rw [matching] at h
    split at h
    · exact hrec _ h
    · split at h
      · split at h
        · obtain ⟨-, rfl⟩ := Prod.mk.inj (Option.some.inj h)
          exact Nat.lt_succ_self _
        · exact hrec _ h
      · exact hrec _ h

end PnmCompaction.Lib.Braces
