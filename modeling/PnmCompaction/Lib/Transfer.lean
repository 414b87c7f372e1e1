import Mathlib.Data.List.Basic
import Mathlib.Data.List.Infix
import Mathlib.Algebra.Order.Group.Nat

/-!
# Retry loops over a partial-transfer system call

A loop that must move a whole buffer through a call that may move only a part
of it, may be interrupted before it moves anything, or may fail. The kernel's
answers are a script, one answer per call, so that a theorem over all scripts
is a theorem over every segmentation of the transfer. A script that ends
before the loop does leaves the call without a return value (`ret = none`):
the process was stopped inside the loop.

`push` is the sending loop; `out` is what the kernel took. `pull` is the
receiving loop over the elements `wire` that still arrive; a failure or the end
of the stream is final, so nothing is left on `wire` after it.
-/

namespace PnmCompaction.Lib.Transfer

variable {α : Type*}

/-- `moved n`: a positive count, `n + 1` or less when less can be moved. -/
inductive Answer where
  | moved (n : ℕ)
  | interrupted
  | failed
  deriving DecidableEq, Repr

/-- The answers that bring a loop forward: all but the interruptions. -/
def effective (as : List Answer) : ℕ := as.countP fun a => a ≠ .interrupted

@[simp] theorem effective_nil : effective [] = 0 := rfl

theorem effective_cons (a : Answer) (as : List Answer) :
    effective (a :: as) = effective as + if a ≠ .interrupted then 1 else 0 := by
  simp only [effective, List.countP_cons, decide_eq_true_eq]

structure Pushed (α : Type*) where
  out : List α
  ret : Option Bool
  rest : List Answer

def push : List Answer → List α → Pushed α
  | as, [] => ⟨[], some true, as⟩
  | [], _ :: _ => ⟨[], none, []⟩
  | .interrupted :: as, x :: xs => push as (x :: xs)
  | .failed :: as, _ :: _ => ⟨[], some false, as⟩
  | .moved n :: as, x :: xs =>
    let r := push as ((x :: xs).drop (n + 1))
    ⟨(x :: xs).take (n + 1) ++ r.out, r.ret, r.rest⟩

structure Pulled (α : Type*) where
  buf : List α
  ret : Option Bool
  rest : List Answer
  wire : List α

def pull : List Answer → ℕ → List α → Pulled α
  | as, 0, wire => ⟨[], some true, as, wire⟩
  | [], _ + 1, wire => ⟨[], none, [], wire⟩
  | .interrupted :: as, len + 1, wire => pull as (len + 1) wire
  | .failed :: as, _ + 1, _ => ⟨[], some false, as, []⟩
  -- no element left to arrive: the call returns 0
  | .moved _ :: as, _ + 1, [] => ⟨[], some false, as, []⟩
  | .moved n :: as, len + 1, x :: wire =>
    let k := min (n + 1) (min (len + 1) (x :: wire).length)
    let r := pull as (len + 1 - k) ((x :: wire).drop k)
    ⟨(x :: wire).take k ++ r.buf, r.ret, r.rest, r.wire⟩

theorem ret_true {ret : Option Bool} (hnone : ret ≠ none) (hfalse : ret ≠ some false) :
    ret = some true := by
  cases ret with
  | none => exact absurd rfl hnone
  | some b => cases b with
    | false => exact absurd rfl hfalse
    | true => rfl

/-! ### Sending -/

@[simp] theorem push_nil (as : List Answer) : push as ([] : List α) = ⟨[], some true, as⟩ := by
  cases as with
  | nil => rfl
  | cons a as => cases a <;> rfl

/-- Whatever the script, the kernel took a prefix of the buffer. -/
theorem push_prefix_out (as : List Answer) (xs : List α) : (push as xs).out <+: xs := by
  induction as, xs using push.induct with
  | case1 as => simp only [push_nil, List.prefix_rfl]
  | case2 x xs => simp only [push, List.nil_prefix]
  | case3 as x xs ih => simpa only [push] using ih
  | case4 as x xs => simp only [push, List.nil_prefix]
  | case5 n as x xs ih =>
    rw [push]
    have h := (List.prefix_append_right_inj ((x :: xs).take (n + 1))).mpr ih
    rwa [List.take_append_drop] at h

theorem push_true (as : List Answer) (xs : List α) (h : (push as xs).ret = some true) :
    (push as xs).out = xs := by
  induction as, xs using push.induct with
  | case1 as => simp only [push_nil]
  | case2 x xs => simp [push] at h
  | case3 as x xs ih =>
    simp only [push] at h ⊢
    exact ih h
  | case4 as x xs => simp [push] at h
  | case5 n as x xs ih =>
    simp only [push] at h ⊢
    rw [ih h, List.take_append_drop]

theorem push_false (as : List Answer) (xs : List α) (h : (push as xs).ret = some false) :
    (push as xs).out.length < xs.length := by
  induction as, xs using push.induct with
  | case1 as => simp at h
  | case2 x xs => simp [push] at h
  | case3 as x xs ih =>
    simp only [push] at h ⊢
    exact ih h
  | case4 as x xs => simp [push]
  | case5 n as x xs ih =>
    simp only [push] at h ⊢
    have hlt := ih h
    rw [List.length_drop] at hlt
    rw [List.length_append, List.length_take]
    omega

theorem push_rest_subset (as : List Answer) (xs : List α) : ∀ a ∈ (push as xs).rest, a ∈ as := by
  induction as, xs using push.induct with
  | case1 as => simp only [push_nil, imp_self, implies_true]
  | case2 x xs => simp [push]
  | case3 as x xs ih =>
    simp only [push]
    exact fun a ha => List.mem_cons_of_mem _ (ih a ha)
  | case4 as x xs =>
    simp only [push]
    exact fun a ha => List.mem_cons_of_mem _ ha
  | case5 n as x xs ih =>
    simp only [push]
    exact fun a ha => List.mem_cons_of_mem _ (ih a ha)

/-- With as many effective answers as elements the loop returns, and it leaves
all but that many of them. -/
theorem push_returns (as : List Answer) (xs : List α) (h : xs.length ≤ effective as) :
    (push as xs).ret ≠ none ∧ effective as ≤ effective (push as xs).rest + xs.length := by
  induction as, xs using push.induct with
  | case1 as => simp
  | case2 x xs => simp at h
  | case3 as x xs ih =>
    simp only [effective_cons, ne_eq, not_true_eq_false, if_false, Nat.add_zero] at h ⊢
    simpa only [push] using ih h
  | case4 as x xs =>
    simp only [push, effective_cons, ne_eq, reduceCtorEq, not_false_eq_true, if_true,
      List.length_cons]
    exact ⟨by simp, by omega⟩
  | case5 n as x xs ih =>
    simp only [effective_cons, ne_eq, reduceCtorEq, not_false_eq_true, if_true,
      List.length_cons] at h ⊢
    have hd : ((x :: xs).drop (n + 1)).length ≤ xs.length := by
      simp only [List.length_drop, List.length_cons]
      omega
    obtain ⟨hr, he⟩ := ih (by omega)
    simp only [push]
    exact ⟨hr, by omega⟩

theorem push_not_false (as : List Answer) (xs : List α) (h : .failed ∉ as) :
    (push as xs).ret ≠ some false := by
  induction as, xs using push.induct with
  | case1 as => simp
  | case2 x xs => simp [push]
  | case3 as x xs ih =>
    simp only [push]
    exact ih (fun hm => h (List.mem_cons_of_mem _ hm))
  | case4 as x xs => exact absurd (List.mem_cons_self ..) h
  | case5 n as x xs ih =>
    simp only [push]
    exact ih (fun hm => h (List.mem_cons_of_mem _ hm))

/-! ### Receiving -/

@[simp] theorem pull_zero (as : List Answer) (wire : List α) :
    pull as 0 wire = ⟨[], some true, as, wire⟩ := by
  cases as with
  | nil => rfl
  | cons a as => cases a <;> rfl

/-- A loop that returns true received the next `len` elements and left the rest. -/
theorem pull_true (as : List Answer) (len : ℕ) (wire : List α)
    (h : (pull as len wire).ret = some true) :
    len ≤ wire.length ∧ (pull as len wire).buf = wire.take len ∧
      (pull as len wire).wire = wire.drop len := by
  induction as, len, wire using pull.induct with
  | case1 as wire => simp
  | case2 len wire => simp [pull] at h
  | case3 as len wire ih =>
    simp only [pull] at h ⊢
    exact ih h
  | case4 as len wire => simp [pull] at h
  | case5 n as len => simp [pull] at h
  | case6 n as len x wire k ih =>
    simp only [pull] at h ⊢
    obtain ⟨hl, hb, hw⟩ := ih h
    have hk : k ≤ len + 1 := by omega
    rw [List.length_drop] at hl
    refine ⟨by omega, ?_, ?_⟩
    · rw [hb, ← List.take_add, Nat.add_sub_cancel' hk]
    · rw [hw, List.drop_drop, Nat.add_sub_cancel' hk]

/-- After a false return nothing arrives any more. -/
theorem pull_false (as : List Answer) (len : ℕ) (wire : List α)
    (h : (pull as len wire).ret = some false) : (pull as len wire).wire = [] := by
  induction as, len, wire using pull.induct with
  | case1 as wire => simp at h
  | case2 len wire => simp [pull] at h
  | case3 as len wire ih =>
    simp only [pull] at h ⊢
    exact ih h
  | case4 as len wire => simp only [pull]
  | case5 n as len => simp only [pull]
  | case6 n as len x wire k ih =>
    simp only [pull] at h ⊢
    exact ih h

theorem pull_rest_subset (as : List Answer) (len : ℕ) (wire : List α) :
    ∀ a ∈ (pull as len wire).rest, a ∈ as := by
  induction as, len, wire using pull.induct with
  | case1 as wire => simp
  | case2 len wire => simp [pull]
  | case3 as len wire ih =>
    simp only [pull]
    exact fun a ha => List.mem_cons_of_mem _ (ih a ha)
  | case4 as len wire =>
    simp only [pull]
    exact fun a ha => List.mem_cons_of_mem _ ha
  | case5 n as len =>
    simp only [pull]
    exact fun a ha => List.mem_cons_of_mem _ ha
  | case6 n as len x wire k ih =>
    simp only [pull]
    exact fun a ha => List.mem_cons_of_mem _ (ih a ha)

theorem pull_returns (as : List Answer) (len : ℕ) (wire : List α) (h : len ≤ effective as) :
    (pull as len wire).ret ≠ none ∧ effective as ≤ effective (pull as len wire).rest + len := by
  induction as, len, wire using pull.induct with
  | case1 as wire => simp
  | case2 len wire => simp at h
  | case3 as len wire ih =>
    simp only [effective_cons, ne_eq, not_true_eq_false, if_false, Nat.add_zero] at h ⊢
    simpa only [pull] using ih h
  | case4 as len wire =>
    simp only [pull, effective_cons, ne_eq, reduceCtorEq, not_false_eq_true, if_true]
    exact ⟨by simp, by omega⟩
  | case5 n as len =>
    simp only [pull, effective_cons, ne_eq, reduceCtorEq, not_false_eq_true, if_true]
    exact ⟨by simp, by omega⟩
  | case6 n as len x wire k ih =>
    simp only [effective_cons, ne_eq, reduceCtorEq, not_false_eq_true, if_true] at h ⊢
    have hk : 1 ≤ k := by
      have : 0 < (x :: wire).length := by simp
      omega
    obtain ⟨hr, he⟩ := ih (by omega)
    rw [pull]
    refine ⟨hr, ?_⟩
    change _ ≤ effective (pull as (len + 1 - k) ((x :: wire).drop k)).rest + _
    omega

/-- Without a failing answer a loop fails only at the end of the stream. -/
theorem pull_not_false (as : List Answer) (len : ℕ) (wire : List α) (h : .failed ∉ as)
    (hl : len ≤ wire.length) : (pull as len wire).ret ≠ some false := by
  induction as, len, wire using pull.induct with
  | case1 as wire => simp
  | case2 len wire => simp [pull]
  | case3 as len wire ih =>
    simp only [pull]
    exact ih (fun hm => h (List.mem_cons_of_mem _ hm)) hl
  | case4 as len wire => exact absurd (List.mem_cons_self ..) h
  | case5 n as len => simp at hl
  | case6 n as len x wire k ih =>
    simp only [pull]
    refine ih (fun hm => h (List.mem_cons_of_mem _ hm)) ?_
    rw [List.length_drop]
    omega

/-! ### Answer streams -/

/-- An unbounded supply of answers in which no interruption goes on for ever. -/
def Lively (s : ℕ → Answer) : Prop := ∀ i, ∃ j, i ≤ j ∧ s j ≠ .interrupted

def upTo (s : ℕ → Answer) (k : ℕ) : List Answer := (List.range k).map s

theorem mem_upTo {s : ℕ → Answer} {k : ℕ} {a : Answer} (h : a ∈ upTo s k) : ∃ i, s i = a := by
  obtain ⟨i, _, hi⟩ := List.mem_map.mp h
  exact ⟨i, hi⟩

theorem effective_upTo_succ (s : ℕ → Answer) (k : ℕ) :
    effective (upTo s (k + 1)) = effective (upTo s k) + if s k ≠ .interrupted then 1 else 0 := by
  simp only [effective, upTo, List.range_succ, List.map_append, List.map_cons, List.map_nil,
    List.countP_append, List.countP_cons, List.countP_nil, Nat.zero_add, decide_eq_true_eq]

theorem effective_upTo_mono (s : ℕ → Answer) {k l : ℕ} (h : k ≤ l) :
    effective (upTo s k) ≤ effective (upTo s l) := by
  induction l, h using Nat.le_induction with
  | base => exact le_rfl
  | succ l _ ih => rw [effective_upTo_succ]; omega

theorem Lively.enough {s : ℕ → Answer} (hs : Lively s) (n : ℕ) :
    ∃ k, n ≤ effective (upTo s k) := by
  induction n with
  | zero => exact ⟨0, Nat.zero_le _⟩
  | succ n ih =>
    obtain ⟨k, hk⟩ := ih
    obtain ⟨j, hj, hne⟩ := hs k
    refine ⟨j + 1, ?_⟩
    have hm := effective_upTo_mono s hj
    rw [effective_upTo_succ, if_pos hne]
    omega

end PnmCompaction.Lib.Transfer
