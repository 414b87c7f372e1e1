import PnmCompaction.Ipc.Frame

/-!
# The compound job message

`PNMCompactionService::Schedule` packs three strings into one message with
`append_frame` and sends it as one frame (pnm_compaction_service.h:85-88,
203-207); `handle_job` takes it apart with three calls of `parse_field`. Each
inner length and the outer one is cut to 32 bits on its own, but only the outer
cut shortens what is sent.
-/

namespace PnmCompaction.Ipc.JobMessage

open PnmCompaction.Lib.LittleEndian
open PnmCompaction.Lib.Transfer
open PnmCompaction.Ipc.Frame

def appendFrame (buf s : Bytes) : Bytes := buf ++ leBytes 4 (toU32 s.length) ++ s

def message (dbName jobId input : Bytes) : Bytes :=
  appendFrame (appendFrame (appendFrame [] dbName) jobId) input

-- the `uint32_t` that `memcpy` reads at `pos`
def word (buf : Bytes) (pos : ℕ) : ℕ := leVal ((buf.drop pos).take 4)

/-- `parse_field` (pnm_unit_main.cc:74-84): the field and the position after it. -/
def parseField (buf : Bytes) (pos : ℕ) : Option (Bytes × ℕ) :=
  if pos + 4 > buf.length then none
  else
    let len := word buf pos
    if pos + 4 + len > buf.length then none
    else some ((buf.drop (pos + 4)).take len, pos + 4 + len)

structure Fields where
  dbName : Bytes
  jobId : Bytes
  input : Bytes
  deriving DecidableEq, Repr

/-- The three calls at the head of `handle_job` (pnm_unit_main.cc:144-155). -/
def parseJob (buf : Bytes) : Option Fields :=
  match parseField buf 0 with
  | none => none
  | some (db, p1) =>
    match parseField buf p1 with
    | none => none
    | some (job, p2) =>
      match parseField buf p2 with
      | none => none
      | some (input, _) => some ⟨db, job, input⟩

theorem message_eq (db job input : Bytes) :
    message db job input =
      leBytes 4 (toU32 db.length) ++ (db ++ (leBytes 4 (toU32 job.length) ++ (job ++
        (leBytes 4 (toU32 input.length) ++ input)))) := by
  simp only [message, appendFrame, List.nil_append, List.append_assoc]

theorem message_length (db job input : Bytes) :
    (message db job input).length = 12 + db.length + job.length + input.length := by
  simp only [message_eq, List.length_append, leBytes_length]
  omega

/-! ### Parsing a message that was cut -/

theorem word_take {buf : Bytes} {pos n : ℕ} (h : pos + 4 ≤ n) :
    word (buf.take n) pos = word buf pos := by
  have hmin : min 4 (n - pos) = 4 := by omega
  rw [word, List.drop_take, List.take_take, hmin, word]

/-- On the first `n` bytes of a buffer a field parses iff it ends among them. -/
theorem parseField_take (buf : Bytes) (n pos : ℕ) (hn : n ≤ buf.length) :
    parseField (buf.take n) pos =
      if pos + 4 + word buf pos ≤ n then
        some ((buf.drop (pos + 4)).take (word buf pos), pos + 4 + word buf pos)
      else none := by
  have hlen : (buf.take n).length = n := List.length_take_of_le hn
  rw [parseField, hlen]
  by_cases h4 : pos + 4 > n
  · rw [if_pos h4, if_neg (by omega)]
  · rw [if_neg h4, word_take (by omega)]
    dsimp only
    by_cases hw : pos + 4 + word buf pos > n
    · rw [if_pos hw, if_neg (by omega)]
    · have hmin : min (word buf pos) (n - (pos + 4)) = word buf pos := by omega
      rw [if_neg hw, if_pos (by omega), List.drop_take, List.take_take, hmin]

-- the three inner lengths, each read where the fields before it end
def len1 (buf : Bytes) : ℕ := word buf 0
def len2 (buf : Bytes) : ℕ := word buf (4 + len1 buf)
def len3 (buf : Bytes) : ℕ := word buf (8 + len1 buf + len2 buf)

def slices (buf : Bytes) : Fields where
  dbName := (buf.drop 4).take (len1 buf)
  jobId := (buf.drop (8 + len1 buf)).take (len2 buf)
  input := (buf.drop (12 + len1 buf + len2 buf)).take (len3 buf)

theorem parseJob_take (buf : Bytes) (n : ℕ) (hn : n ≤ buf.length) :
    parseJob (buf.take n) =
      if 12 + len1 buf + len2 buf + len3 buf ≤ n then some (slices buf) else none := by
  have e1 : 0 + 4 + word buf 0 = 4 + len1 buf := by rw [len1]
  have e2 : 4 + len1 buf + 4 + word buf (4 + len1 buf) = 8 + len1 buf + len2 buf := by
    rw [len2]; omega
  have e3 : 8 + len1 buf + len2 buf + 4 + word buf (8 + len1 buf + len2 buf) =
      12 + len1 buf + len2 buf + len3 buf := by
    rw [len3]; omega
  rw [parseJob, parseField_take buf n 0 hn, e1]
  by_cases h1 : 4 + len1 buf ≤ n
  · rw [if_pos h1]
    dsimp only
    rw [parseField_take buf n _ hn, e2]
    by_cases h2 : 8 + len1 buf + len2 buf ≤ n
    · rw [if_pos h2]
      dsimp only
      rw [parseField_take buf n _ hn, e3]
      by_cases h3 : 12 + len1 buf + len2 buf + len3 buf ≤ n
      · rw [if_pos h3, if_pos h3]
        have p2 : 4 + len1 buf + 4 = 8 + len1 buf := by omega
        have p3 : 8 + len1 buf + len2 buf + 4 = 12 + len1 buf + len2 buf := by omega
        rw [p2, p3]
        rfl
      · rw [if_neg h3, if_neg h3]
    · rw [if_neg h2, if_neg (by omega)]
  · rw [if_neg h1, if_neg (by omega)]

/-! ### The inner lengths of a message -/

section Message

variable {db job input : Bytes}

theorem len1_message : len1 (message db job input) = toU32 db.length := by
  rw [len1, word, message_eq, List.drop_zero, List.take_left' (leBytes_length 4 _), leVal_u32]

-- From here on a field must be shorter than 2^32 bytes: only then does the
-- next length stand where the parser looks for it.
theorem drop_db (hdb : db.length < 2 ^ 32) :
    (message db job input).drop (4 + len1 (message db job input)) =
      leBytes 4 (toU32 job.length) ++ (job ++ (leBytes 4 (toU32 input.length) ++ input)) := by
  rw [len1_message, toU32_of_lt hdb, message_eq, toU32_of_lt hdb, ← List.drop_drop,
    List.drop_left' (leBytes_length 4 _), List.drop_left]

theorem len2_message (hdb : db.length < 2 ^ 32) :
    len2 (message db job input) = toU32 job.length := by
  rw [len2, word, drop_db hdb, List.take_left' (leBytes_length 4 _), leVal_u32]

theorem drop_job (hdb : db.length < 2 ^ 32) (hjob : job.length < 2 ^ 32) :
    (message db job input).drop
        (8 + len1 (message db job input) + len2 (message db job input)) =
      leBytes 4 (toU32 input.length) ++ input := by
  have hpos : 8 + len1 (message db job input) + len2 (message db job input) =
      (4 + len1 (message db job input)) + (4 + len2 (message db job input)) := by omega
  rw [hpos, ← List.drop_drop, drop_db hdb, len2_message hdb, toU32_of_lt hjob,
    ← List.drop_drop, List.drop_left' (leBytes_length 4 _), List.drop_left]

theorem len3_message (hdb : db.length < 2 ^ 32) (hjob : job.length < 2 ^ 32) :
    len3 (message db job input) = toU32 input.length := by
  rw [len3, word, drop_job hdb hjob, List.take_left' (leBytes_length 4 _), leVal_u32]

/-- With the two names shorter than 2^32 bytes the parser finds both of them
and the first `|input| mod 2^32` bytes of the input. -/
theorem slices_message (hdb : db.length < 2 ^ 32) (hjob : job.length < 2 ^ 32) :
    slices (message db job input) = ⟨db, job, input.take (toU32 input.length)⟩ := by
  have h1 : (message db job input).drop 4 = db ++ (leBytes 4 (toU32 job.length) ++
      (job ++ (leBytes 4 (toU32 input.length) ++ input))) := by
    rw [message_eq, List.drop_left' (leBytes_length 4 _)]
  have h2 : (message db job input).drop (8 + len1 (message db job input)) =
      job ++ (leBytes 4 (toU32 input.length) ++ input) := by
    have hpos : 8 + len1 (message db job input) = (4 + len1 (message db job input)) + 4 := by
      omega
    rw [hpos, ← List.drop_drop, drop_db hdb, List.drop_left' (leBytes_length 4 _)]
  have h3 : (message db job input).drop
      (12 + len1 (message db job input) + len2 (message db job input)) = input := by
    have hpos : 12 + len1 (message db job input) + len2 (message db job input) =
        (8 + len1 (message db job input) + len2 (message db job input)) + 4 := by omega
    rw [hpos, ← List.drop_drop, drop_job hdb hjob, List.drop_left' (leBytes_length 4 _)]
  rw [slices, h1, h2, h3, len1_message, len2_message hdb, len3_message hdb hjob,
    toU32_of_lt hdb, toU32_of_lt hjob, List.take_left, List.take_left]

/-- A message shorter than 2^32 bytes is parsed back into its strings. -/
theorem parseJob_message (h : (message db job input).length < 2 ^ 32) :
    parseJob (message db job input) = some ⟨db, job, input⟩ := by
  rw [message_length] at h
  have hdb : db.length < 2 ^ 32 := by omega
  have hjob : job.length < 2 ^ 32 := by omega
  have hinput : input.length < 2 ^ 32 := by omega
  have hp := parseJob_take (message db job input) (message db job input).length le_rfl
  rw [List.take_length, slices_message hdb hjob, len1_message, len2_message hdb,
    len3_message hdb hjob, toU32_of_lt hdb, toU32_of_lt hjob, toU32_of_lt hinput,
    List.take_length, message_length, if_pos le_rfl] at hp
  exact hp

end Message

/-! ### Over the socket -/

theorem frame_take_toU32 (data : Bytes) :
    frame (data.take (toU32 data.length)) = frame data := by
  have hlen : (data.take (toU32 data.length)).length = toU32 data.length :=
    List.length_take_of_le (toU32_le _)
  have hlt := toU32_lt data.length
  rw [frame, hlen, toU32_of_lt hlt, List.take_take, Nat.min_self, frame]

/-- What the receiver gets of a message, if it gets a frame at all: the
message's first `|message| mod 2^32` bytes. -/
theorem received_of_frame (recvs : List Answer) (msg : Bytes) {wire : Bytes}
    (hw : wire <+: frame msg) (hr : (pnmRecvFrame recvs wire).ret = some true) :
    (pnmRecvFrame recvs wire).buf = msg.take (toU32 msg.length) := by
  have hlen : (msg.take (toU32 msg.length)).length < 2 ^ 32 := by
    rw [List.length_take_of_le (toU32_le _)]
    exact toU32_lt _
  have hw' : wire <+: frame (msg.take (toU32 msg.length)) ++ [] := by
    rw [frame_take_toU32, List.append_nil]
    exact hw
  exact (pnmRecvFrame_frame recvs hlen hw' hr).1

theorem received_message (sends recvs : List Answer) (msg : Bytes)
    (hr : (pnmRecvFrame recvs (pnmSendFrame sends msg).out).ret = some true) :
    (pnmRecvFrame recvs (pnmSendFrame sends msg).out).buf = msg.take (toU32 msg.length) :=
  received_of_frame recvs msg (pnmSendFrame_prefix_out sends msg) hr

theorem exists_transfer (msg : Bytes) :
    ∃ sends recvs, (pnmSendFrame sends msg).ret = some true ∧
      (pnmRecvFrame recvs (pnmSendFrame sends msg).out).ret = some true := by
  have hs : Lively fun _ => .moved 0 := fun i => ⟨i, le_rfl, by simp⟩
  obtain ⟨k, hk⟩ := hs.enough (frame msg).length
  have hnf : .failed ∉ upTo (fun _ => .moved 0) k := not_failed_upTo (by simp) k
  have hsend : (pnmSendFrame (upTo (fun _ => .moved 0) k) msg).ret = some true :=
    ret_true (pnmSendFrame_returns _ msg hk).1 (pnmSendFrame_not_failed _ msg hnf).1
  have hlen : 4 + leVal ((frame msg).take 4) = (frame msg).length := by
    rw [frame_length, frame, List.take_left' (leBytes_length 4 _), leVal_u32]
  refine ⟨_, upTo (fun _ => .moved 0) k, hsend, ?_⟩
  rw [pnmSendFrame_true _ _ hsend]
  exact ret_true (pnmRecvFrame_returns _ (frame msg) (by omega)).1
    (pnmRecvFrame_not_failed _ (frame msg) hnf (by omega)).1

/-- Whenever the message is sent whole, received and parsed, the worker has the
three strings of `Schedule`. -/
def NeverShortened (db job input : Bytes) : Prop :=
  ∀ (sends recvs : List Answer) (fields : Fields),
    (pnmSendFrame sends (message db job input)).ret = some true →
    (pnmRecvFrame recvs (pnmSendFrame sends (message db job input)).out).ret = some true →
    parseJob (pnmRecvFrame recvs (pnmSendFrame sends (message db job input)).out).buf =
      some fields →
    fields = ⟨db, job, input⟩

-- The scripts do not matter: all that counts is the cut message.
theorem neverShortened_iff_parse (db job input : Bytes) :
    NeverShortened db job input ↔
      ∀ fields, parseJob ((message db job input).take (toU32 (message db job input).length)) =
        some fields → fields = ⟨db, job, input⟩ := by
  constructor
  · intro h fields hp
    obtain ⟨sends, recvs, hs, hr⟩ := exists_transfer (message db job input)
    refine h sends recvs fields hs hr ?_
    rw [received_message sends recvs _ hr, hp]
  · intro h sends recvs fields hs hr hp
    rw [received_message sends recvs _ hr] at hp
    exact h fields hp

theorem slices_length_le (buf : Bytes) :
    (slices buf).dbName.length + (slices buf).jobId.length + (slices buf).input.length ≤
      len1 buf + len2 buf + len3 buf := by
  simp only [slices, List.length_take]
  omega

/-- A message is never shortened unnoticed exactly when its outer length fits
32 bits, or the bytes that the outer cut leaves are fewer than the inner lengths ask for. -/
theorem neverShortened_iff (db job input : Bytes) :
    NeverShortened db job input ↔
      (message db job input).length < 2 ^ 32 ∨
      toU32 (message db job input).length <
        12 + len1 (message db job input) + len2 (message db job input) +
          len3 (message db job input) := by
  rw [neverShortened_iff_parse]
  by_cases hfit : (message db job input).length < 2 ^ 32
  · refine ⟨fun _ => .inl hfit, fun _ fields hp => ?_⟩
    rw [toU32_of_lt hfit, List.take_length, parseJob_message hfit, Option.some.injEq] at hp
    exact hp.symm
  · rw [parseJob_take _ _ (toU32_le _)]
    constructor
    · intro h
      by_contra hcon
      rw [not_or] at hcon
      have hslices := h (slices (message db job input)) (if_pos (by omega))
      -- the parsed strings would fill the whole message, which is longer than the cut one
      have hle := slices_length_le (message db job input)
      rw [hslices] at hle
      have hlen := message_length db job input
      have hlt := toU32_lt (message db job input).length
      dsimp only at hle
      omega
    · intro h fields hp
      rw [if_neg (by omega)] at hp
      exact absurd hp (by simp)

/-- For names shorter than 2^32 bytes the condition reads: the input is shorter
than 2^32 bytes, or its remainder does not fit behind the names. -/
theorem neverShortened_iff_input {db job : Bytes} (hdb : db.length < 2 ^ 32)
    (hjob : job.length < 2 ^ 32) (input : Bytes) :
    NeverShortened db job input ↔
      input.length < 2 ^ 32 ∨ 2 ^ 32 ≤ 12 + db.length + job.length + toU32 input.length := by
  rw [neverShortened_iff, len1_message, len2_message hdb, len3_message hdb hjob, message_length,
    toU32_of_lt hdb, toU32_of_lt hjob]
  simp only [toU32]
  omega

/-- An input of exactly 2^32 bytes can reach the worker as the empty string: the
compound message is 16 + 2^32 bytes long, so the frame carries its first 16. -/
theorem input_shortened_to_nothing :
    ∃ sends recvs,
      let msg := message [47, 100, 98] [55] (List.replicate (2 ^ 32) 0)
      (pnmSendFrame sends msg).ret = some true ∧
      (pnmRecvFrame recvs (pnmSendFrame sends msg).out).ret = some true ∧
      parseJob (pnmRecvFrame recvs (pnmSendFrame sends msg).out).buf =
        some ⟨[47, 100, 98], [55], []⟩ := by
  generalize hinput : List.replicate (2 ^ 32) (0 : Byte) = input
  have hlen : input.length = 2 ^ 32 := by rw [← hinput, List.length_replicate]
  have hdb : ([47, 100, 98] : Bytes).length < 2 ^ 32 := by simp
  have hjob : ([55] : Bytes).length < 2 ^ 32 := by simp
  have hzero : toU32 input.length = 0 := by rw [hlen, toU32, Nat.mod_self]
  obtain ⟨sends, recvs, hs, hr⟩ := exists_transfer (message [47, 100, 98] [55] input)
  refine ⟨sends, recvs, hs, hr, ?_⟩
  rw [received_message sends recvs _ hr, parseJob_take _ _ (toU32_le _), len1_message,
    len2_message hdb, len3_message hdb hjob, slices_message hdb hjob, hzero, message_length, hlen,
    List.take_zero]
  exact if_pos (by decide)

end PnmCompaction.Ipc.JobMessage
