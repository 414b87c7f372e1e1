import Mathlib.Data.Option.Basic
import Mathlib.Data.List.Basic

/-!
# Finite executions of a partial step function

A system is a state type, an action type and `step : σ → α → Option σ`; the
action carries every choice of the environment, and `none` means that the
action is not enabled. `exec` runs a list of actions. `Meets` says of a run
that each of its steps satisfies a condition on the state before the step.
The two invariant rules below are the only inductions over runs that the
systems of this development need. `outputs` is for systems that answer their
inputs; two of them that keep in step give the same answers.
-/

namespace PnmCompaction.Lib.Exec

variable {σ α β κ : Type*} {step : σ → α → Option σ} {cond : σ → α → Prop}

/-- The state after a list of actions, left to right. -/
def exec (step : σ → α → Option σ) : σ → List α → Option σ
  | s, [] => some s
  | s, a :: as => (step s a).bind fun t => exec step t as

/-- Every step of the run meets `cond` in the state before it. -/
def Meets (step : σ → α → Option σ) (cond : σ → α → Prop) : σ → List α → Prop
  | _, [] => True
  | s, a :: as => cond s a ∧ ∀ t, step s a = some t → Meets step cond t as

-- so that a concrete run can be checked by evaluation
instance decidableMeets (step : σ → α → Option σ) (cond : σ → α → Prop)
    [∀ s a, Decidable (cond s a)] : ∀ s as, Decidable (Meets step cond s as)
  | _, [] => .isTrue trivial
  | s, a :: as =>
    match h : step s a with
    | none => decidable_of_iff (cond s a) (by simp [Meets, h])
    | some t =>
      have := decidableMeets step cond t as
      decidable_of_iff (cond s a ∧ Meets step cond t as) (by simp [Meets, h])

theorem exec_cons {s t : σ} {a : α} {as : List α} :
    exec step s (a :: as) = some t ↔ ∃ u, step s a = some u ∧ exec step u as = some t := by
  simp only [exec, Option.bind_eq_some_iff]

theorem exec_append {s t : σ} {as bs : List α} :
    exec step s (as ++ bs) = some t ↔ ∃ u, exec step s as = some u ∧ exec step u bs = some t := by
  induction as generalizing s with
  | nil => simp only [List.nil_append, exec, Option.some.injEq, exists_eq_left']
  | cons a as ih =>
    rw [List.cons_append, exec_cons]
    constructor
    · rintro ⟨v, hv, hr⟩
      obtain ⟨u, hu, hr⟩ := ih.mp hr
      exact ⟨u, exec_cons.mpr ⟨v, hv, hu⟩, hr⟩
    · rintro ⟨u, hu, hr⟩
      obtain ⟨v, hv, hu⟩ := exec_cons.mp hu
      exact ⟨v, hv, ih.mpr ⟨u, hu, hr⟩⟩

theorem Meets.of_append {s : σ} {as bs : List α} (h : Meets step cond s (as ++ bs)) :
    Meets step cond s as := by
  induction as generalizing s with
  | nil => trivial
  | cons a as ih => exact ⟨h.1, fun t ht => ih (h.2 t ht)⟩

/-- An invariant that every step keeps holds after every run. -/
theorem exec_invariant {I : σ → Prop}
    (hstep : ∀ s a t, I s → step s a = some t → I t)
    {s t : σ} {as : List α} (h0 : I s) (hr : exec step s as = some t) : I t := by
  induction as generalizing s with
  | nil => exact Option.some.inj hr ▸ h0
  | cons a as ih =>
    obtain ⟨u, hu, hr⟩ := exec_cons.mp hr
    exact ih (hstep s a u h0 hu) hr

/-- An invariant that the steps meeting `cond` keep holds after every run whose
steps all meet it. -/
theorem exec_invariant_of_meets {I : σ → Prop}
    (hstep : ∀ s a t, I s → cond s a → step s a = some t → I t)
    {s t : σ} {as : List α} (h0 : I s) (hm : Meets step cond s as)
    (hr : exec step s as = some t) : I t := by
  induction as generalizing s with
  | nil => exact Option.some.inj hr ▸ h0
  | cons a as ih =>
    obtain ⟨u, hu, hr⟩ := exec_cons.mp hr
    exact ih (hstep s a u h0 hm.1 hu) (hm.2 u hu) hr

/-- The answers to a list of inputs; `none` when the system stops on the way. -/
def outputs (f : σ → α → Option (σ × List β)) : σ → List α → Option (List β)
  | _, [] => some []
  | s, a :: as => (f s a).bind fun r => (outputs f r.1 as).map (r.2 ++ ·)

/-- Two states that stay related as long as a monitor `next` accepts the inputs
cannot be told apart by inputs that it accepts. -/
theorem outputs_eq_of_lockstep {f : σ → α → Option (σ × List β)} {next : κ → α → Option κ}
    {R : κ → σ → σ → Prop}
    (hstep : ∀ k k' s t a, R k s t → next k a = some k' →
      (∃ s' t' o, f s a = some (s', o) ∧ f t a = some (t', o) ∧ R k' s' t') ∨
        (f s a = none ∧ f t a = none))
    {k k' : κ} {s t : σ} {as : List α} (h0 : R k s t) (hk : exec next k as = some k') :
    outputs f s as = outputs f t as := by
  induction as generalizing k s t with
  | nil => rfl
  | cons a as ih =>
    obtain ⟨k1, hk1, hk⟩ := exec_cons.mp hk
    simp only [outputs]
    rcases hstep k k1 s t a h0 hk1 with ⟨s', t', o, hs, ht, hR⟩ | ⟨hs, ht⟩
    · rw [hs, ht, Option.bind_some, Option.bind_some, ih hR hk]
    · rw [hs, ht]

end PnmCompaction.Lib.Exec
