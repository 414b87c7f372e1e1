import Mathlib.Logic.Basic

/-!
# Code with assertions

A function that may fail an assertion returns `Except ε α`; `ensure` is the
assertion. The lemmas invert a successful or a failed run of such a function
one statement at a time.
-/

namespace PnmCompaction.Lib.Checked

universe u

variable {ε ε' : Type u} {α β : Type u}

/-- `assert(p)`, failing with `e`. -/
def ensure (p : Prop) [Decidable p] (e : ε) : Except ε PUnit :=
  if p then .ok ⟨⟩ else .error e

@[simp] theorem ensure_ok_iff {p : Prop} [Decidable p] {e : ε} {x : PUnit} :
    ensure p e = .ok x ↔ p := by
  unfold ensure
  split <;> simp_all

@[simp] theorem bind_ok_iff {x : Except ε α} {f : α → Except ε β} {b : β} :
    (x >>= f) = .ok b ↔ ∃ a, x = .ok a ∧ f a = .ok b := by
  rcases x with e | a
  · constructor
    · intro h
      cases h
    · rintro ⟨_, h, _⟩
      cases h
  · constructor
    · intro h
      exact ⟨a, rfl, h⟩
    · rintro ⟨_, h, hf⟩
      cases h
      exact hf

@[simp] theorem pure_ok_iff {a b : α} : (pure a : Except ε α) = .ok b ↔ a = b :=
  ⟨Except.ok.inj, congrArg Except.ok⟩

theorem bind_error_iff {x : Except ε α} {f : α → Except ε β} {e : ε} :
    (x >>= f) = .error e ↔ x = .error e ∨ ∃ a, x = .ok a ∧ f a = .error e := by
  rcases x with e' | a
  · constructor
    · intro h
      cases h
      exact Or.inl rfl
    · rintro (h | ⟨_, h, _⟩)
      · cases h
        rfl
      · cases h
  · constructor
    · intro h
      exact Or.inr ⟨a, rfl, h⟩
    · rintro (h | ⟨_, h, hf⟩)
      · cases h
      · cases h
        exact hf

theorem pure_ne_error {a : α} {e : ε} : (pure a : Except ε α) ≠ .error e := by
  intro h
  cases h

theorem bind_ne_error {x : Except ε α} {f : α → Except ε β} {e : ε} (hx : x ≠ .error e)
    (hf : ∀ a, x = .ok a → f a ≠ .error e) : (x >>= f) ≠ .error e := by
  intro h
  rcases bind_error_iff.mp h with h | ⟨a, ha, h⟩
  · exact hx h
  · exact hf a ha h

theorem ensure_bind_ne_error {p : Prop} [Decidable p] {e e' : ε} {f : PUnit → Except ε α}
    (h : e ≠ e') (hf : f ⟨⟩ ≠ .error e') : (ensure p e >>= f) ≠ .error e' := by
  refine bind_ne_error ?_ fun _ _ => hf
  unfold ensure
  split
  · exact pure_ne_error
  · exact fun heq => h (Except.error.inj heq)

@[simp] theorem mapError_ok_iff {x : Except ε α} {f : ε → ε'} {a : α} :
    x.mapError f = .ok a ↔ x = .ok a := by
  rcases x with e | b
  · constructor
    · intro h
      cases h
    · intro h
      cases h
  · constructor
    · intro h
      exact congrArg Except.ok (Except.ok.inj h)
    · intro h
      exact congrArg Except.ok (Except.ok.inj h)

theorem mapError_error_iff {x : Except ε α} {f : ε → ε'} {e : ε'} :
    x.mapError f = .error e ↔ ∃ a, x = .error a ∧ f a = e := by
  rcases x with e' | b
  · constructor
    · intro h
      exact ⟨e', rfl, Except.error.inj h⟩
    · rintro ⟨_, h, he⟩
      cases h
      exact congrArg Except.error he
  · constructor
    · intro h
      cases h
    · rintro ⟨_, h, _⟩
      cases h

end PnmCompaction.Lib.Checked
