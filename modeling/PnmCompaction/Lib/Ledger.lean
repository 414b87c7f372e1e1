import Mathlib.Order.Interval.Multiset
import Mathlib.Order.Interval.Finset.Nat
import Mathlib.Data.List.Nodup

/-!
# Names that are handed out in order

A system names its objects by consecutive numbers; `n` is the next unused one.
Who holds an object is a multiset of names. As long as what is held afterwards
comes out of what was held before and of the names handed out in between,
nothing is ever held twice.

The second part is about lists whose entries are found by a key.
-/

namespace PnmCompaction.Lib.Ledger

/-- The names are pairwise different and have all been handed out before `n`. -/
def Below (m : Multiset ℕ) (n : ℕ) : Prop := m.Nodup ∧ ∀ i ∈ m, i < n

theorem Below.le {m m' : Multiset ℕ} {n : ℕ} (h : Below m n) (hle : m' ≤ m) : Below m' n :=
  ⟨Multiset.nodup_of_le hle h.1, fun i hi => h.2 i (Multiset.mem_of_le hle hi)⟩

theorem Below.issue {m : Multiset ℕ} {n n' : ℕ} (h : Below m n) (hn : n ≤ n') :
    Below (m + Multiset.Ico n n') n' := by
  refine ⟨?_, ?_⟩
  · rw [Multiset.nodup_add]
    refine ⟨h.1, Multiset.nodup_Ico, ?_⟩
    rw [Multiset.disjoint_left]
    intro i hi hi'
    exact absurd (h.2 i hi) (Nat.not_lt.mpr (Multiset.mem_Ico.mp hi').1)
  · intro i hi
    rcases Multiset.mem_add.mp hi with hi | hi
    · exact Nat.lt_of_lt_of_le (h.2 i hi) hn
    · exact (Multiset.mem_Ico.mp hi).2

/-- The rule for one step: only names from before and new ones are held. -/
theorem Below.step {m m' : Multiset ℕ} {n n' : ℕ} (h : Below m n) (hn : n ≤ n')
    (hle : m' ≤ m + Multiset.Ico n n') : Below m' n' :=
  (h.issue hn).le hle

theorem Ico_succ (n : ℕ) : Multiset.Ico n (n + 1) = {n} := by
  have h : Finset.Ico n (n + 1) = {n} := Nat.Ico_succ_singleton n
  exact congrArg Finset.val h

variable {α β : Type*} [DecidableEq β]

/-- An entry of a list with different keys can be replaced or erased by its key;
the other entries are the same in both cases. -/
theorem keyed_split {key : α → β} {l : List α} {a : α} (hn : (l.map key).Nodup) (ha : a ∈ l) :
    ∃ rest, l.Perm (a :: rest) ∧
      (∀ b, key b = key a → (l.map fun x => if key x = key b then b else x).Perm (b :: rest)) ∧
      (l.filter fun x => key x ≠ key a).Perm rest := by
  obtain ⟨pre, post, rfl⟩ := List.append_of_mem ha
  rw [List.map_append, List.map_cons, List.nodup_middle, List.nodup_cons, List.mem_append,
    not_or] at hn
  obtain ⟨⟨hpre, hpost⟩, _⟩ := hn
  have hne : ∀ x ∈ pre ++ post, key x ≠ key a := by
    intro x hx he
    rcases List.mem_append.mp hx with hx | hx
    · exact hpre (he ▸ List.mem_map_of_mem hx)
    · exact hpost (he ▸ List.mem_map_of_mem hx)
  refine ⟨pre ++ post, List.perm_middle, ?_, ?_⟩
  · intro b hb
    have hsame : ∀ l' : List α, (∀ x ∈ l', x ∈ pre ++ post) →
        (l'.map fun x => if key x = key b then b else x) = l' := by
      intro l' hl'
      rw [List.map_congr_left (fun x hx => if_neg (hb ▸ hne x (hl' x hx))), List.map_id']
    rw [List.map_append, List.map_cons, if_pos hb.symm,
      hsame pre fun x hx => List.mem_append_left _ hx,
      hsame post fun x hx => List.mem_append_right _ hx]
    exact List.perm_middle
  · have hall : (pre ++ post).filter (fun x => decide (key x ≠ key a)) = pre ++ post :=
      List.filter_eq_self.mpr fun x hx => decide_eq_true (hne x hx)
    rw [List.filter_append] at hall
    rw [List.filter_append, List.filter_cons_of_neg (by simp), hall]

end PnmCompaction.Lib.Ledger
