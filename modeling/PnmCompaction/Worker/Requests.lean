import PnmCompaction.Lib.Checked
import PnmCompaction.Worker.HandleJob

/-!
# What the worker accepts as a request

`parse_field` and the head of `handle_job` (pnm_unit_main.cc 73-84, 136-155) on
an arbitrary frame. `IsRequest` says what a well-formed message is without
parsing it. The reads of `parse_field` are also modelled as loads from the
buffer, with the sums of `size_t`, so that a load outside the buffer would show.
-/

namespace PnmCompaction.Worker

open PnmCompaction.Lib.Checked
open PnmCompaction.Lib.LittleEndian
open PnmCompaction.Ipc.Frame
open PnmCompaction.Ipc.JobMessage

/-! ### Well-formed messages -/

/-- `w` is a length of four little-endian bytes followed by exactly that many bytes, `s`. -/
def IsField (w s : Bytes) : Prop :=
  ∃ len : Bytes, len.length = 4 ∧ leVal len = s.length ∧ w = len ++ s

/-- `m` is the three fields of `f` followed by `rest`. -/
def IsRequest (m : Bytes) (f : Fields) (rest : Bytes) : Prop :=
  ∃ w1 w2 w3, IsField w1 f.dbName ∧ IsField w2 f.jobId ∧ IsField w3 f.input ∧
    m = w1 ++ (w2 ++ (w3 ++ rest))

theorem IsField.length_eq {w s : Bytes} (h : IsField w s) : w.length = 4 + s.length := by
  obtain ⟨len, hlen, -, rfl⟩ := h
  rw [List.length_append, hlen]

theorem parseField_of_isField (buf : Bytes) {w s rest : Bytes} {pos : ℕ}
    (hpos : pos ≤ buf.length) (h : IsField w s) (hbuf : buf.drop pos = w ++ rest) :
    parseField buf pos = some (s, pos + w.length) := by
  have hw := h.length_eq
  obtain ⟨len, hlen, hval, rfl⟩ := h
  have htotal : buf.length = pos + (4 + s.length + rest.length) := by
    have := congrArg List.length hbuf
    rw [List.length_drop, List.length_append, hw] at this
    omega
  rw [List.append_assoc] at hbuf
  have hword : word buf pos = s.length := by
    rw [word, hbuf, List.take_left' hlen, hval]
  have hslice : buf.drop (pos + 4) = s ++ rest := by
    rw [← List.drop_drop, hbuf, List.drop_left' hlen]
  rw [parseField, if_neg (by omega), hword, hslice]
  dsimp only
  rw [if_neg (by omega), List.take_left, hw, Nat.add_assoc]

theorem isField_of_parseField {buf s : Bytes} {pos pos' : ℕ}
    (h : parseField buf pos = some (s, pos')) :
    ∃ w, IsField w s ∧ pos' = pos + w.length ∧ pos' ≤ buf.length ∧
      buf.drop pos = w ++ buf.drop pos' := by
  unfold parseField at h
  split at h
  · cases h
  next h4 =>
  dsimp only at h
  split at h
  · cases h
  next hlen =>
  obtain ⟨rfl, rfl⟩ := Prod.mk.inj (Option.some.inj h)
  -- the field is the header and the slice that `assign` copies
  have hhead : ((buf.drop pos).take 4).length = 4 := by
    rw [List.length_take, List.length_drop]
    omega
  have hbody : ((buf.drop (pos + 4)).take (word buf pos)).length = word buf pos := by
    rw [List.length_take, List.length_drop]
    omega
  refine ⟨(buf.drop pos).take 4 ++ (buf.drop (pos + 4)).take (word buf pos),
    ⟨_, hhead, hbody.symm, rfl⟩, ?_, by omega, ?_⟩
  · rw [List.length_append, hhead, hbody, Nat.add_assoc]
  · rw [List.append_assoc, ← List.drop_drop (i := word buf pos), List.take_append_drop,
      ← List.drop_drop, List.take_append_drop]

theorem parseJob_eq_some_iff {buf : Bytes} {f : Fields} :
    parseJob buf = some f ↔ ∃ s1 p1 s2 p2 s3 p3, parseField buf 0 = some (s1, p1) ∧
      parseField buf p1 = some (s2, p2) ∧ parseField buf p2 = some (s3, p3) ∧
      f = ⟨s1, s2, s3⟩ := by
  constructor
  · intro h
    unfold parseJob at h
    split at h
    · cases h
    next s1 p1 h1 =>
    split at h
    · cases h
    next s2 p2 h2 =>
    split at h
    · cases h
    next s3 p3 h3 =>
    exact ⟨s1, p1, s2, p2, s3, p3, h1, h2, h3, (Option.some.inj h).symm⟩
  · rintro ⟨s1, p1, s2, p2, s3, p3, h1, h2, h3, rfl⟩
    simp only [parseJob, h1, h2, h3]

/-- The three calls succeed with `f` exactly on the messages that are the three
fields of `f` and a rest. -/
theorem parseJob_iff_isRequest (m : Bytes) (f : Fields) :
    parseJob m = some f ↔ ∃ rest, IsRequest m f rest := by
  constructor
  · intro h
    obtain ⟨s1, p1, s2, p2, s3, p3, h1, h2, h3, rfl⟩ := parseJob_eq_some_iff.mp h
    obtain ⟨w1, hw1, -, -, hd1⟩ := isField_of_parseField h1
    obtain ⟨w2, hw2, -, -, hd2⟩ := isField_of_parseField h2
    obtain ⟨w3, hw3, -, -, hd3⟩ := isField_of_parseField h3
    refine ⟨m.drop p3, w1, w2, w3, hw1, hw2, hw3, ?_⟩
    rw [← hd3, ← hd2, ← hd1, List.drop_zero]
  · rintro ⟨rest, w1, w2, w3, hw1, hw2, hw3, hm⟩
    have hlen : m.length = w1.length + (w2.length + (w3.length + rest.length)) := by
      simp only [hm, List.length_append]
    have hd1 : m.drop 0 = w1 ++ (w2 ++ (w3 ++ rest)) := by rw [hm, List.drop_zero]
    have hd2 : m.drop (0 + w1.length) = w2 ++ (w3 ++ rest) := by
      rw [Nat.zero_add, hm, List.drop_left]
    have hd3 : m.drop (0 + w1.length + w2.length) = w3 ++ rest := by
      rw [← List.drop_drop, hd2, List.drop_left]
    have h1 := parseField_of_isField m (by omega) hw1 hd1
    have h2 := parseField_of_isField m (by omega) hw2 hd2
    have h3 := parseField_of_isField m (by omega) hw3 hd3
    exact parseJob_eq_some_iff.mpr ⟨_, _, _, _, _, _, h1, h2, h3, rfl⟩

/-- A message is the fields of at most one request. -/
theorem IsRequest.unique {m rest rest' : Bytes} {f f' : Fields} (h : IsRequest m f rest)
    (h' : IsRequest m f' rest') : f = f' ∧ rest = rest' := by
  have hf : f = f' := by
    have hp := (parseJob_iff_isRequest m f).mpr ⟨rest, h⟩
    rw [(parseJob_iff_isRequest m f').mpr ⟨rest', h'⟩] at hp
    exact (Option.some.inj hp).symm
  refine ⟨hf, ?_⟩
  -- equal fields are equally long, so the two rests start at the same byte
  obtain ⟨w1, w2, w3, hw1, hw2, hw3, rfl⟩ := h
  obtain ⟨v1, v2, v3, hv1, hv2, hv3, heq⟩ := h'
  rw [← hf] at hv1 hv2 hv3
  obtain ⟨-, heq⟩ := List.append_inj heq (hw1.length_eq.trans hv1.length_eq.symm)
  obtain ⟨-, heq⟩ := List.append_inj heq (hw2.length_eq.trans hv2.length_eq.symm)
  exact (List.append_inj heq (hw3.length_eq.trans hv3.length_eq.symm)).2

/-! ### The reads of `parse_field` -/

inductive OutsideBuffer
  | outside
  deriving DecidableEq, Repr

/-- A read of `n` bytes at `buf + pos`. -/
def readAt (buf : Bytes) (pos n : ℕ) : Except OutsideBuffer Bytes := do
  ensure (pos + n ≤ buf.length) .outside
  pure ((buf.drop pos).take n)

-- the sums of `parse_field` are taken in `size_t`
def addSize (a b : ℕ) : ℕ := (a + b) % 2 ^ 64

/-- `parse_field` with its two reads of the buffer, by `memcpy` and by `assign`. -/
def loadField (buf : Bytes) (pos : ℕ) : Except OutsideBuffer (Option (Bytes × ℕ)) :=
  if addSize pos 4 > buf.length then pure none
  else do
    let len ← readAt buf pos 4
    let pos := addSize pos 4
    if addSize pos (leVal len) > buf.length then pure none
    else
      let out ← readAt buf pos (leVal len)
      pure (some (out, addSize pos (leVal len)))

def loadJob (buf : Bytes) : Except OutsideBuffer (Option Fields) := do
  match ← loadField buf 0 with
  | none => pure none
  | some (db, p1) =>
    match ← loadField buf p1 with
    | none => pure none
    | some (job, p2) =>
      match ← loadField buf p2 with
      | none => pure none
      | some (input, _) => pure (some ⟨db, job, input⟩)

theorem readAt_of_le {buf : Bytes} {pos n : ℕ} (h : pos + n ≤ buf.length) :
    readAt buf pos n = .ok ((buf.drop pos).take n) :=
  bind_ok_iff.mpr ⟨⟨⟩, ensure_ok_iff.mpr h, rfl⟩

theorem addSize_of_lt {a b : ℕ} (h : a + b < 2 ^ 64) : addSize a b = a + b := Nat.mod_eq_of_lt h

theorem word_lt (buf : Bytes) (pos : ℕ) : word buf pos < 2 ^ 32 := by
  have hdigits : ∀ d ∈ ((buf.drop pos).take 4).map Fin.val, d < 256 := by
    intro d hd
    obtain ⟨b, -, rfl⟩ := List.mem_map.mp hd
    exact b.isLt
  have hlt := Nat.ofDigits_lt_base_pow_length (by decide : 1 < 256) hdigits
  have hlen : (((buf.drop pos).take 4).map Fin.val).length ≤ 4 := by
    rw [List.length_map]
    exact List.length_take_le 4 _
  calc word buf pos < 256 ^ (((buf.drop pos).take 4).map Fin.val).length := hlt
    _ ≤ 256 ^ 4 := Nat.pow_le_pow_right (by decide) hlen
    _ = 2 ^ 32 := by decide

/-- Inside a frame no sum of `parse_field` wraps, and both reads stay in the buffer. -/
theorem loadField_eq {buf : Bytes} {pos : ℕ} (hbuf : buf.length < 2 ^ 32)
    (hpos : pos ≤ buf.length) : loadField buf pos = .ok (parseField buf pos) := by
  have hword := word_lt buf pos
  have h4 : addSize pos 4 = pos + 4 := addSize_of_lt (by omega)
  have hend : addSize (pos + 4) (word buf pos) = pos + 4 + word buf pos :=
    addSize_of_lt (by omega)
  unfold loadField parseField
  rw [h4]
  by_cases hhead : pos + 4 > buf.length
  · rw [if_pos hhead, if_pos hhead]
    rfl
  rw [if_neg hhead, if_neg hhead]
  refine bind_ok_iff.mpr ⟨_, readAt_of_le (by omega), ?_⟩
  dsimp only
  change (if addSize (pos + 4) (word buf pos) > buf.length then _ else _) = _
  rw [hend]
  by_cases hbody : pos + 4 + word buf pos > buf.length
  · rw [if_pos hbody, if_pos hbody]
    rfl
  · rw [if_neg hbody, if_neg hbody]
    refine bind_ok_iff.mpr ⟨_, readAt_of_le (not_lt.mp hbody), ?_⟩
    change pure (some (_, addSize (pos + 4) (word buf pos))) = _
    rw [hend]
    rfl

/-- The three calls of `handle_job` read nothing outside a frame. -/
theorem loadJob_eq {m : Bytes} (hm : m.length < 2 ^ 32) : loadJob m = .ok (parseJob m) := by
  unfold loadJob parseJob
  refine bind_ok_iff.mpr ⟨_, loadField_eq hm (Nat.zero_le _), ?_⟩
  cases h1 : parseField m 0 with
  | none => rfl
  | some r1 =>
    obtain ⟨-, -, -, hp1, -⟩ := isField_of_parseField h1
    refine bind_ok_iff.mpr ⟨_, loadField_eq hm hp1, ?_⟩
    cases h2 : parseField m r1.2 with
    | none => simp only [h2, pure_ok_iff]
    | some r2 =>
      obtain ⟨-, -, -, hp2, -⟩ := isField_of_parseField h2
      refine bind_ok_iff.mpr ⟨_, loadField_eq hm hp2, ?_⟩
      cases h3 : parseField m r2.2 <;> simp only [h2, h3, pure_ok_iff]

/-! ### What a job touches -/

/-- A call of `handle_job` into RocksDB, or a load of the device's `STATUS`. -/
inductive Call
  | loadLatestOptions | openAsSecondary | openAndCompact
  | tryCatchUpWithPrimary | compactWithoutInstallation
  | loadStatus
  deriving DecidableEq, Repr

section Calls

variable (readInput : Bytes → Option CompactionServiceInput)

def ensureSecondaryCalls (g : Globals) : List Call :=
  if g.secondary.isSome then [] else [.loadLatestOptions, .openAsSecondary]

-- one load for each value the loop looks at
def pollCalls : List ℕ → List Call
  | [] => []
  | st :: rest =>
    if st &&& Device.statusDone ≠ 0 ∨ st &&& Device.statusError ≠ 0 then [.loadStatus]
    else .loadStatus :: pollCalls rest

def compactOnSecondaryCalls (g : Globals) (sec : Secondary) (env : Env) (f : Fields) :
    List Call :=
  .tryCatchUpWithPrimary ::
    match readInput f.input with
    | none => []
    | some csi =>
      .compactWithoutInstallation ::
        match compactionRuns env ⟨sec.db, kDefaultColumnFamilyName, sec.options, csi.inputFiles,
            kSecondaryPath⟩ with
        | none => []
        | some _ => if env.resultWrites && g.mmioMapped then pollCalls env.polls else []

/-- The calls that `handleJob` makes, in order. -/
def handleJobCalls (g : Globals) (msg : Option Bytes) (env : Env) : List Call :=
  match msg.bind parseJob with
  | none => []
  | some f =>
    ensureSecondaryCalls g ++
      match ensureSecondary g env f.dbName with
      | none => [.openAndCompact]
      | some sec => compactOnSecondaryCalls readInput g sec env f

end Calls

variable (readInput : Bytes → Option CompactionServiceInput) (g : Globals) (env : Env)

theorem compactOnSecondaryCalls_ne_nil (sec : Secondary) (f : Fields) :
    compactOnSecondaryCalls readInput g sec env f ≠ [] :=
  List.cons_ne_nil _ _

/-- A message makes the worker call RocksDB, or the device, exactly when it parses. -/
theorem handleJobCalls_eq_nil_iff (m : Bytes) :
    handleJobCalls readInput g (some m) env = [] ↔ parseJob m = none := by
  unfold handleJobCalls
  rw [Option.bind_some]
  cases hp : parseJob m with
  | none => simp only
  | some f =>
    refine ⟨fun h => ?_, fun h => by cases h⟩
    obtain ⟨-, h⟩ := List.append_eq_nil_iff.mp h
    cases hs : ensureSecondary g env f.dbName with
    | none =>
      rw [hs] at h
      cases h
    | some sec =>
      rw [hs] at h
      exact absurd h (compactOnSecondaryCalls_ne_nil readInput g env sec f)

theorem handleJob_of_parseJob_none {m : Bytes} (h : parseJob m = none) :
    handleJob readInput g (some m) env = some (g, ⟨some failureReply, none⟩) := by
  simp only [handleJob, h]

/-- A message shorter than 2^32 bytes parses exactly when it is three fields and
a rest, and then into those fields, which are unique; nothing outside it is read;
and one that does not parse is answered with the failure byte, with the globals
as they were and without a call of RocksDB or a look at the device. -/
theorem request_parsed_iff_well_formed (m : Bytes) (hm : m.length < 2 ^ 32) :
    (∀ f, parseJob m = some f ↔ ∃ rest, IsRequest m f rest) ∧
    (∀ f f' rest rest', IsRequest m f rest → IsRequest m f' rest' → f = f' ∧ rest = rest') ∧
    loadJob m = .ok (parseJob m) ∧
    (parseJob m = none →
      handleJob readInput g (some m) env = some (g, ⟨some [1], none⟩) ∧
      handleJobCalls readInput g (some m) env = []) := by
  refine ⟨parseJob_iff_isRequest m, fun f f' rest rest' => IsRequest.unique, loadJob_eq hm, ?_⟩
  intro h
  exact ⟨handleJob_of_parseJob_none readInput g env h,
    (handleJobCalls_eq_nil_iff readInput g env m).mpr h⟩

-- a database name of two bytes, and a second length that reaches past the end
theorem request_parsed_iff_well_formed_short :
    let m : Bytes := [2, 0, 0, 0, 47, 97, 9, 0, 0, 0, 55]
    let env : Env := ⟨none, true, fun _ _ => [], none, true, []⟩
    loadJob m = .ok none ∧
    handleJobCalls (fun _ => none) (Globals.init true) (some m) env = [] := by
  intro m env
  have h := request_parsed_iff_well_formed (fun _ => none) (Globals.init true) env m (by decide)
  have hnone : parseJob m = none := by decide +kernel
  refine ⟨?_, (h.2.2.2 hnone).2⟩
  rw [← hnone]
  exact h.2.2.1

end PnmCompaction.Worker
