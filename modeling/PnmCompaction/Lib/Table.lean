import Mathlib.Data.List.Basic

/-!
# Tables with numbered rows

A system keeps its processes in a list. A new process gets the next number, and a
step changes the row of one process. The lemmas say what a row of the table after
such a change can be.
-/

namespace PnmCompaction.Lib.Table

variable {α : Type*} {l : List α} {a x : α} {i j : ℕ}

theorem concat_cases (h : (l ++ [a])[i]? = some x) : l[i]? = some x ∨ i = l.length ∧ x = a := by
  rw [List.getElem?_append] at h
  split at h
  · exact .inl h
  · next hge =>
    rw [List.getElem?_singleton] at h
    split at h
    · exact .inr ⟨by omega, (Option.some.inj h).symm⟩
    · cases h

theorem set_cases {old : α} (get : l[j]? = some old) (h : (l.set j a)[i]? = some x) :
    i = j ∧ x = a ∨ i ≠ j ∧ l[i]? = some x := by
  obtain ⟨hlt, -⟩ := List.getElem?_eq_some_iff.mp get
  by_cases hij : i = j
  · rw [hij, List.getElem?_set_self hlt] at h
    exact .inl ⟨hij, (Option.some.inj h).symm⟩
  · rw [List.getElem?_set_ne (Ne.symm hij)] at h
    exact .inr ⟨hij, h⟩

theorem getElem?_modify_ite (f : α → α) (l : List α) (j i : ℕ) :
    (l.modify j f)[i]? = if j = i then (l[i]?).map f else l[i]? := by
  rw [List.getElem?_modify]
  split
  · rfl
  · simp

theorem modify_cases {f : α → α} (h : (l.modify j f)[i]? = some x) :
    i ≠ j ∧ l[i]? = some x ∨ i = j ∧ ∃ old, l[j]? = some old ∧ x = f old := by
  rw [getElem?_modify_ite] at h
  split at h
  · next hij =>
    obtain ⟨old, hold, hx⟩ := Option.map_eq_some_iff.mp h
    exact .inr ⟨hij.symm, old, hij ▸ hold, hx.symm⟩
  · next hij => exact .inl ⟨fun he => hij he.symm, h⟩

/-! ### What holds of every row -/

variable {P : α → Prop}

theorem forall_concat (h : ∀ (i : ℕ) (x : α), l[i]? = some x → P x) (hnew : P a) :
    ∀ (i : ℕ) (x : α), (l ++ [a])[i]? = some x → P x := by
  intro i x hget
  rcases concat_cases hget with hold | ⟨-, rfl⟩
  · exact h i x hold
  · exact hnew

theorem forall_set (h : ∀ (i : ℕ) (x : α), l[i]? = some x → P x) {old : α}
    (get : l[j]? = some old) (hnew : P a) :
    ∀ (i : ℕ) (x : α), (l.set j a)[i]? = some x → P x := by
  intro i x hget
  rcases set_cases get hget with ⟨-, rfl⟩ | ⟨-, hold⟩
  · exact hnew
  · exact h i x hold

end PnmCompaction.Lib.Table
