import Mathlib.Data.List.TakeWhile
import Mathlib.Data.Nat.Digits.Lemmas
import PnmCompaction.Ipc.JobMessage

/-!
# `PNMCompactionService::Wait` and the scheduled job id

`Schedule` returns the string `"<job>:<fd>"` and `Wait` takes the descriptor out
of it again; nothing else connects the two calls.
-/

namespace PnmCompaction.Service

open PnmCompaction.Lib.LittleEndian
open PnmCompaction.Lib.Transfer
open PnmCompaction.Ipc.Frame

/-! ### The id string (pnm_compaction_service.h:136) -/

def digit (d : ℕ) : Byte := Fin.ofNat 256 (48 + d)

def decimal (n : ℕ) : Bytes := if n = 0 then [48] else (Nat.digits 10 n).reverse.map digit

def isDigit (b : Byte) : Bool := 48 ≤ b.val && b.val ≤ 57

/-- `std::stoi` on a string that begins with a digit; it stops at the first
character that is none. `none`: it throws. -/
def stoi (s : Bytes) : Option ℕ :=
  let ds := s.takeWhile isDigit
  if ds = [] then none else some (Nat.ofDigits 10 (ds.reverse.map fun b => b.val - 48))

-- ':'
def colon : Byte := 58

def scheduledId (rdbJob fd : ℕ) : Bytes := decimal rdbJob ++ colon :: decimal fd

/-- `std::stoi(scheduled_job_id.substr(colon + 1))`; `none`: there is no colon. -/
def waitFd (id : Bytes) : Option ℕ :=
  match id.dropWhile (fun b => b ≠ colon) with
  | [] => none
  | _ :: rest => stoi rest

theorem digit_val {d : ℕ} (h : d < 10) : (digit d).val = 48 + d := by
  unfold digit
  rw [Fin.val_ofNat]
  exact Nat.mod_eq_of_lt (by omega)

theorem isDigit_decimal (n : ℕ) : ∀ b ∈ decimal n, isDigit b = true := by
  intro b hb
  unfold decimal at hb
  split at hb
  · rw [List.mem_singleton.mp hb]
    rfl
  · obtain ⟨d, hd, rfl⟩ := List.mem_map.mp hb
    have hlt : d < 10 := Nat.digits_lt_base (by norm_num) (List.mem_reverse.mp hd)
    unfold isDigit
    rw [digit_val hlt]
    simp only [Bool.and_eq_true, decide_eq_true_eq]
    omega

theorem decimal_ne_nil (n : ℕ) : decimal n ≠ [] := by
  unfold decimal
  split
  · simp
  · next h => simpa [Nat.digits_ne_nil_iff_ne_zero] using h

theorem stoi_decimal (n : ℕ) : stoi (decimal n) = some n := by
  have hall : (decimal n).takeWhile isDigit = decimal n :=
    List.takeWhile_eq_self_iff.mpr (isDigit_decimal n)
  unfold stoi
  dsimp only
  rw [hall, if_neg (decimal_ne_nil n), Option.some.injEq]
  unfold decimal
  split
  · next h => rw [h]; rfl
  · have hmap : ((Nat.digits 10 n).map digit).map (fun b => b.val - 48) = Nat.digits 10 n := by
      rw [List.map_map]
      conv_rhs => rw [← List.map_id (Nat.digits 10 n)]
      refine List.map_congr_left fun d hd => ?_
      have hlt : d < 10 := Nat.digits_lt_base (by norm_num) hd
      rw [Function.comp_apply, digit_val hlt, id_eq]
      omega
    rw [← List.map_reverse, List.reverse_reverse, hmap, Nat.ofDigits_digits]

/-- `Wait` finds the descriptor that `Schedule` put into the id. -/
theorem waitFd_scheduledId (rdbJob fd : ℕ) : waitFd (scheduledId rdbJob fd) = some fd := by
  have hjob : ∀ b ∈ decimal rdbJob, decide (b ≠ colon) = true := by
    intro b hb
    have hdig := isDigit_decimal rdbJob b hb
    rw [decide_eq_true_eq]
    rintro rfl
    cases hdig
  unfold waitFd scheduledId
  rw [List.dropWhile_append_of_pos hjob, List.dropWhile_cons_of_neg (by simp)]
  exact stoi_decimal fd

/-! ### The reply -/

inductive JobStatus where
  | success | failure | useLocal
  deriving DecidableEq, Repr

/-- `Wait` from `pnm_recv_frame` on (pnm_compaction_service.h:155-174), with
`result` as the caller's string before the call. `none`: still blocked. -/
def waitReply (result : Bytes) (as : List Answer) (wire : Bytes) : Option (JobStatus × Bytes) :=
  let r := pnmRecvFrame as wire
  match r.ret with
  | none => none
  | some false => some (.useLocal, result)
  | some true =>
    match r.buf with
    | [] => some (.failure, result)
    | status :: rest => some (if status = 0 then .success else .failure, rest)

theorem waitReply_success {result : Bytes} {as : List Answer} {wire r : Bytes}
    (h : waitReply result as wire = some (.success, r)) :
    (pnmRecvFrame as wire).ret = some true ∧ (pnmRecvFrame as wire).buf = 0 :: r := by
  unfold waitReply at h
  dsimp only at h
  split at h
  · cases h
  · cases h
  · next hret =>
    split at h
    · cases h
    · next status rest hbuf =>
      simp only [Option.some.injEq, Prod.mk.injEq] at h
      obtain ⟨hst, rfl⟩ := h
      refine ⟨hret, ?_⟩
      rw [hbuf]
      split at hst
      · next hzero => rw [hzero]
      · cases hst

/-- If less than a whole frame arrives, `Wait` falls back to local compaction
and leaves the caller's string alone. -/
theorem waitReply_cut {result : Bytes} {as : List Answer} {wire data : Bytes}
    (hw : wire <+: frame data) (hcut : wire.length < (frame data).length)
    {st : JobStatus} {r : Bytes}
    (h : waitReply result as wire = some (st, r)) : st = .useLocal ∧ r = result := by
  unfold waitReply at h
  dsimp only at h
  split at h
  · cases h
  · simp only [Option.some.injEq, Prod.mk.injEq] at h
    exact ⟨h.1.symm, h.2.symm⟩
  · next hret => exact absurd hret (pnmRecvFrame_cut as hw hcut)

end PnmCompaction.Service
