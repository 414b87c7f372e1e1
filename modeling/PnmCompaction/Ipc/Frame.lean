import Mathlib.Algebra.BigOperators.Group.List.Basic
import PnmCompaction.Lib.LittleEndian
import PnmCompaction.Lib.Transfer

/-!
# Length-prefixed frames (`rocksdb/tools/pnm_ipc.h`)

`pnm_send_frame` and `pnm_recv_frame` over a UNIX stream socket, for every
answer script of `send` and `recv`. The bytes that reach the receiver are any
prefix of the bytes the sender's kernel took: the sender may stop, or the
stream break, at any byte. A broken or closed stream stays so.
-/

namespace PnmCompaction.Ipc.Frame

open PnmCompaction.Lib.LittleEndian
open PnmCompaction.Lib.Transfer

def toU32 (n : ℕ) : ℕ := n % 2 ^ 32

theorem toU32_lt (n : ℕ) : toU32 n < 2 ^ 32 := Nat.mod_lt _ (by norm_num)

theorem toU32_le (n : ℕ) : toU32 n ≤ n := Nat.mod_le _ _

theorem toU32_of_lt {n : ℕ} (h : n < 2 ^ 32) : toU32 n = n := Nat.mod_eq_of_lt h

theorem leVal_u32 (n : ℕ) : leVal (leBytes 4 (toU32 n)) = toU32 n :=
  leVal_leBytes_of_lt (toU32_lt n)

/-! ### The four functions (pnm_ipc.h:16-56) -/

/-- `pnm_send_all` (pnm_ipc.h:16-26): EINTR restarts the call, `n <= 0` gives up. -/
def pnmSendAll (as : List Answer) (buf : Bytes) : Pushed Byte := push as buf

def pnmRecvAll (as : List Answer) (len : ℕ) (wire : Bytes) : Pulled Byte := pull as len wire

def pnmSendFrame (as : List Answer) (data : Bytes) : Pushed Byte :=
  let len := toU32 data.length
  let h := pnmSendAll as (leBytes 4 len)
  if h.ret = some true then
    if 0 < len then
      let b := pnmSendAll h.rest (data.take len)
      ⟨h.out ++ b.out, b.ret, b.rest⟩
    else ⟨h.out, some true, h.rest⟩
  else h

/-- `pnm_recv_frame` (pnm_ipc.h:50-56). `buf` is `*out`; its contents mean
something to the callers only when the call returns true. -/
def pnmRecvFrame (as : List Answer) (wire : Bytes) : Pulled Byte :=
  let h := pnmRecvAll as 4 wire
  if h.ret = some true then
    let len := leVal h.buf
    if 0 < len then pnmRecvAll h.rest len h.wire
    else ⟨[], some true, h.rest, h.wire⟩
  else ⟨[], h.ret, h.rest, h.wire⟩

def frame (data : Bytes) : Bytes :=
  leBytes 4 (toU32 data.length) ++ data.take (toU32 data.length)

theorem frame_length (data : Bytes) : (frame data).length = 4 + toU32 data.length := by
  rw [frame, List.length_append, leBytes_length, List.length_take,
    Nat.min_eq_left (toU32_le data.length)]

theorem frame_of_lt {data : Bytes} (h : data.length < 2 ^ 32) :
    frame data = leBytes 4 data.length ++ data := by
  rw [frame, toU32_of_lt h, List.take_length]

/-! ### Sending one frame -/

/-- The length test before the body is an optimisation: an empty body sends nothing. -/
theorem pnmSendFrame_eq (as : List Answer) (data : Bytes) :
    pnmSendFrame as data =
      let h := push as (leBytes 4 (toU32 data.length))
      if h.ret = some true then
        let b := push h.rest (data.take (toU32 data.length))
        ⟨h.out ++ b.out, b.ret, b.rest⟩
      else h := by
  simp only [pnmSendFrame, pnmSendAll]
  by_cases hz : 0 < toU32 data.length
  · simp only [hz, if_true]
  · have h0 : toU32 data.length = 0 := by omega
    simp only [h0, lt_irrefl, if_false, List.take_zero, push_nil, List.append_nil]

theorem pnmSendFrame_prefix_out (as : List Answer) (data : Bytes) :
    (pnmSendFrame as data).out <+: frame data := by
  rw [pnmSendFrame_eq, frame]
  dsimp only
  split
  · next h =>
    rw [push_true _ _ h]
    exact (List.prefix_append_right_inj _).mpr (push_prefix_out _ _)
  · exact (push_prefix_out _ _).trans (List.prefix_append _ _)

theorem pnmSendFrame_true (as : List Answer) (data : Bytes)
    (h : (pnmSendFrame as data).ret = some true) : (pnmSendFrame as data).out = frame data := by
  rw [pnmSendFrame_eq] at h ⊢
  dsimp only at h ⊢
  split at h
  · next hh =>
    rw [if_pos hh, push_true _ _ hh, push_true _ _ h, frame]
  · next hh => exact absurd h hh

theorem pnmSendFrame_false (as : List Answer) (data : Bytes)
    (h : (pnmSendFrame as data).ret = some false) :
    (pnmSendFrame as data).out.length < (frame data).length := by
  rw [pnmSendFrame_eq] at h ⊢
  dsimp only at h ⊢
  split at h
  · next hh =>
    have hlt := push_false _ _ h
    rw [if_pos hh, push_true _ _ hh, frame, List.length_append, List.length_append]
    omega
  · next hh =>
    have hlt := push_false _ _ h
    rw [if_neg hh, frame, List.length_append]
    omega

theorem pnmSendFrame_returns (as : List Answer) (data : Bytes)
    (h : (frame data).length ≤ effective as) :
    (pnmSendFrame as data).ret ≠ none ∧
      effective as ≤ effective (pnmSendFrame as data).rest + (frame data).length := by
  rw [frame, List.length_append] at h ⊢
  obtain ⟨hh, he⟩ := push_returns as (leBytes 4 (toU32 data.length)) (by omega)
  rw [pnmSendFrame_eq]
  dsimp only
  split
  · obtain ⟨hb, he'⟩ := push_returns (push as (leBytes 4 (toU32 data.length))).rest
      (data.take (toU32 data.length)) (by omega)
    exact ⟨hb, by dsimp only; omega⟩
  · exact ⟨hh, by omega⟩

theorem pnmSendFrame_not_failed (as : List Answer) (data : Bytes) (h : .failed ∉ as) :
    (pnmSendFrame as data).ret ≠ some false ∧ .failed ∉ (pnmSendFrame as data).rest := by
  have hrest : .failed ∉ (push as (leBytes 4 (toU32 data.length))).rest :=
    fun hm => h (push_rest_subset _ _ _ hm)
  rw [pnmSendFrame_eq]
  dsimp only
  split
  · exact ⟨push_not_false _ _ hrest, fun hm => hrest (push_rest_subset _ _ _ hm)⟩
  · exact ⟨push_not_false _ _ h, hrest⟩

/-! ### Receiving one frame -/

theorem pnmRecvFrame_eq (as : List Answer) (wire : Bytes) :
    pnmRecvFrame as wire =
      let h := pull as 4 wire
      if h.ret = some true then pull h.rest (leVal h.buf) h.wire
      else ⟨[], h.ret, h.rest, h.wire⟩ := by
  simp only [pnmRecvFrame, pnmRecvAll]
  by_cases hz : 0 < leVal (pull as 4 wire).buf
  · simp only [hz, if_true]
  · have h0 : leVal (pull as 4 wire).buf = 0 := by omega
    simp only [h0, lt_irrefl, if_false, pull_zero]

/-- A call that returns true took the frame whose length stands in the next four bytes. -/
theorem pnmRecvFrame_true (as : List Answer) (wire : Bytes)
    (h : (pnmRecvFrame as wire).ret = some true) :
    let len := leVal (wire.take 4)
    4 + len ≤ wire.length ∧ (pnmRecvFrame as wire).buf = (wire.drop 4).take len ∧
      (pnmRecvFrame as wire).wire = wire.drop (4 + len) := by
  rw [pnmRecvFrame_eq] at h ⊢
  dsimp only at h ⊢
  split at h
  · next hh =>
    obtain ⟨hl, hb, hw⟩ := pull_true _ _ _ hh
    obtain ⟨hl', hb', hw'⟩ := pull_true _ _ _ h
    rw [if_pos hh, hb', hw']
    rw [hw, hb, List.length_drop] at hl'
    rw [hb, hw, List.drop_drop]
    exact ⟨by omega, rfl, rfl⟩
  · next hh => exact absurd h hh

theorem pnmRecvFrame_false (as : List Answer) (wire : Bytes)
    (h : (pnmRecvFrame as wire).ret = some false) : (pnmRecvFrame as wire).wire = [] := by
  rw [pnmRecvFrame_eq] at h ⊢
  dsimp only at h ⊢
  split at h
  · next hh => rw [if_pos hh, pull_false _ _ _ h]
  · next hh => rw [if_neg hh]; exact pull_false _ _ _ h

theorem pnmRecvFrame_returns (as : List Answer) (wire : Bytes)
    (h : 4 + leVal (wire.take 4) ≤ effective as) :
    (pnmRecvFrame as wire).ret ≠ none ∧
      effective as ≤ effective (pnmRecvFrame as wire).rest + (4 + leVal (wire.take 4)) := by
  obtain ⟨hh, he⟩ := pull_returns as 4 wire (by omega)
  rw [pnmRecvFrame_eq]
  dsimp only
  split
  · next ht =>
    obtain ⟨-, hb, -⟩ := pull_true _ _ _ ht
    rw [hb]
    obtain ⟨hr, he'⟩ := pull_returns (pull as 4 wire).rest (leVal (wire.take 4))
      (pull as 4 wire).wire (by omega)
    exact ⟨hr, by omega⟩
  · exact ⟨hh, by dsimp only; omega⟩

theorem pnmRecvFrame_not_failed (as : List Answer) (wire : Bytes) (h : .failed ∉ as)
    (hl : 4 + leVal (wire.take 4) ≤ wire.length) :
    (pnmRecvFrame as wire).ret ≠ some false ∧ .failed ∉ (pnmRecvFrame as wire).rest := by
  have hrest : .failed ∉ (pull as 4 wire).rest := fun hm => h (pull_rest_subset _ _ _ _ hm)
  rw [pnmRecvFrame_eq]
  dsimp only
  split
  · next ht =>
    obtain ⟨-, hb, hw⟩ := pull_true _ _ _ ht
    refine ⟨pull_not_false _ _ _ hrest ?_, fun hm => hrest (pull_rest_subset _ _ _ _ hm)⟩
    rw [hb, hw, List.length_drop]
    omega
  · exact ⟨pull_not_false _ _ _ h (by omega), hrest⟩

/-! ### A stream of frames -/

-- The sender stops at the first frame it could not send whole.
def sendFrames : List Answer → List Bytes → Pushed Byte
  | as, [] => ⟨[], some true, as⟩
  | as, p :: ps =>
    let r := pnmSendFrame as p
    if r.ret = some true then
      let t := sendFrames r.rest ps
      ⟨r.out ++ t.out, t.ret, t.rest⟩
    else r

-- The receiver may call again after a false return; a call that does not
-- return is the last one.
def recvFrames : List Answer → ℕ → Bytes → List (Pulled Byte)
  | _, 0, _ => []
  | as, n + 1, wire =>
    let r := pnmRecvFrame as wire
    r :: if r.ret = none then [] else recvFrames r.rest n r.wire

def accepted (calls : List (Pulled Byte)) : List Bytes :=
  calls.filterMap fun r => if r.ret = some true then some r.buf else none

def stream (payloads : List Bytes) : Bytes := (payloads.map frame).flatten

theorem stream_cons (p : Bytes) (ps : List Bytes) : stream (p :: ps) = frame p ++ stream ps := rfl

theorem accepted_cons_true {r : Pulled Byte} {rs : List (Pulled Byte)} (h : r.ret = some true) :
    accepted (r :: rs) = r.buf :: accepted rs := by
  simp only [accepted, List.filterMap_cons, h, if_true]

theorem accepted_cons_of_ne {r : Pulled Byte} {rs : List (Pulled Byte)} (h : r.ret ≠ some true) :
    accepted (r :: rs) = accepted rs := by
  simp only [accepted, List.filterMap_cons, h, if_false]

theorem sendFrames_prefix_stream (as : List Answer) (ps : List Bytes) :
    (sendFrames as ps).out <+: stream ps := by
  induction ps generalizing as with
  | nil => exact List.nil_prefix
  | cons p ps ih =>
    rw [sendFrames, stream_cons]
    dsimp only
    split
    · next h =>
      rw [pnmSendFrame_true _ _ h]
      exact (List.prefix_append_right_inj _).mpr (ih _)
    · exact (pnmSendFrame_prefix_out as p).trans (List.prefix_append _ _)

theorem sendFrames_true (as : List Answer) (ps : List Bytes)
    (h : (sendFrames as ps).ret = some true) : (sendFrames as ps).out = stream ps := by
  induction ps generalizing as with
  | nil => rfl
  | cons p ps ih =>
    rw [sendFrames] at h ⊢
    dsimp only at h ⊢
    split at h
    · next hp =>
      have ht := ih _ h
      rw [if_pos hp, pnmSendFrame_true _ _ hp, ht, stream_cons]
    · next hp => exact absurd h hp

theorem leVal_take_frame {p wire rest : Bytes} (hw : wire <+: frame p ++ rest)
    (h4 : 4 ≤ wire.length) : leVal (wire.take 4) = toU32 p.length := by
  obtain ⟨t, ht⟩ := hw
  have htake : wire.take 4 = leBytes 4 (toU32 p.length) := by
    have h := congrArg (List.take 4) ht
    rw [List.take_append_of_le_length h4, frame, List.append_assoc,
      List.take_left' (leBytes_length 4 _)] at h
    exact h
  rw [htake, leVal_u32]

/-- A frame that was cut anywhere is not accepted. -/
theorem pnmRecvFrame_cut (as : List Answer) {p wire : Bytes} (hw : wire <+: frame p)
    (hcut : wire.length < (frame p).length) : (pnmRecvFrame as wire).ret ≠ some true := by
  intro hret
  obtain ⟨hlen, -, -⟩ := pnmRecvFrame_true as wire hret
  have hval := leVal_take_frame (hw.trans (List.prefix_append _ [])) (by omega)
  rw [frame_length] at hcut
  omega

/-- If the bytes that arrive begin like frame `p`, a true return delivers `p`. -/
theorem pnmRecvFrame_frame (as : List Answer) {p : Bytes} (hp : p.length < 2 ^ 32)
    {wire rest : Bytes} (hw : wire <+: frame p ++ rest)
    (h : (pnmRecvFrame as wire).ret = some true) :
    (pnmRecvFrame as wire).buf = p ∧ (pnmRecvFrame as wire).wire <+: rest := by
  obtain ⟨hl, hb, hr⟩ := pnmRecvFrame_true as wire h
  have hlen := leVal_take_frame hw (by omega)
  rw [hlen, toU32_of_lt hp] at hl hb hr
  obtain ⟨t, ht⟩ := hw
  rw [frame_of_lt hp] at ht
  have hdrop : wire.drop 4 ++ t = p ++ rest := by
    have h4 := congrArg (List.drop 4) ht
    rw [List.drop_append_of_le_length (by omega), List.append_assoc,
      List.drop_left' (leBytes_length 4 p.length)] at h4
    exact h4
  have hdl : p.length ≤ (wire.drop 4).length := by
    rw [List.length_drop]
    omega
  constructor
  · have htake := congrArg (List.take p.length) hdrop
    rw [List.take_append_of_le_length hdl, List.take_left] at htake
    rw [hb, htake]
  · refine ⟨t, ?_⟩
    have hd := congrArg (List.drop p.length) hdrop
    rw [List.drop_append_of_le_length hdl, List.drop_left, List.drop_drop] at hd
    rw [hr, hd]

/-- Whatever prefix of the stream arrives, the calls that return true deliver
the payloads in order. -/
theorem accepted_prefix_of_stream (as : List Answer) (n : ℕ) (ps : List Bytes)
    (hps : ∀ p ∈ ps, p.length < 2 ^ 32) (wire : Bytes) (hw : wire <+: stream ps) :
    accepted (recvFrames as n wire) <+: ps := by
  induction n generalizing as ps wire with
  | zero => exact List.nil_prefix
  | succ n ih =>
    rw [recvFrames]
    cases hr : (pnmRecvFrame as wire).ret with
    | none =>
      rw [accepted_cons_of_ne (by simp [hr])]
      exact List.nil_prefix
    | some b =>
      rw [if_neg (by simp)]
      cases b with
      | false =>
        -- the stream is over: the later calls deliver a prefix of nothing
        have hempty : (pnmRecvFrame as wire).wire = [] := pnmRecvFrame_false _ _ hr
        have hnone := ih (pnmRecvFrame as wire).rest [] (by simp) [] List.nil_prefix
        rw [accepted_cons_of_ne (by simp [hr]), hempty, List.prefix_nil.mp hnone]
        exact List.nil_prefix
      | true =>
        cases ps with
        | nil =>
          obtain ⟨hl, -, -⟩ := pnmRecvFrame_true as wire hr
          have hnil : wire = [] := List.prefix_nil.mp hw
          rw [hnil, List.length_nil] at hl
          omega
        | cons p ps =>
          have hp := hps p (List.mem_cons_self ..)
          obtain ⟨hbuf, hwire⟩ := pnmRecvFrame_frame as hp hw hr
          have hrest := ih (pnmRecvFrame as wire).rest ps
            (fun q hq => hps q (List.mem_cons_of_mem _ hq)) _ hwire
          rw [accepted_cons_true hr, hbuf]
          exact (List.cons_prefix_cons).mpr ⟨rfl, hrest⟩

/-! ### Nothing breaks -/

theorem sendFrames_ok (as : List Answer) (ps : List Bytes) (hf : .failed ∉ as)
    (he : (stream ps).length ≤ effective as) : (sendFrames as ps).ret = some true := by
  induction ps generalizing as with
  | nil => rfl
  | cons p ps ih =>
    rw [stream_cons, List.length_append] at he
    obtain ⟨hret, heff⟩ := pnmSendFrame_returns as p (by omega)
    obtain ⟨hnf, hrest⟩ := pnmSendFrame_not_failed as p hf
    have htrue : (pnmSendFrame as p).ret = some true := ret_true hret hnf
    have ht := ih (pnmSendFrame as p).rest hrest (by omega)
    rw [sendFrames]
    dsimp only
    rw [if_pos htrue, ht]

theorem recvFrames_ok (as : List Answer) (ps : List Bytes) (hps : ∀ p ∈ ps, p.length < 2 ^ 32)
    (hf : .failed ∉ as) (he : (stream ps).length ≤ effective as) :
    accepted (recvFrames as ps.length (stream ps)) = ps := by
  induction ps generalizing as with
  | nil => rfl
  | cons p ps ih =>
    have hp := hps p (List.mem_cons_self ..)
    have hlen : (stream (p :: ps)).length = 4 + p.length + (stream ps).length := by
      rw [stream_cons, List.length_append, frame_length, toU32_of_lt hp]
    have hval := leVal_take_frame (List.prefix_refl (frame p ++ stream ps))
      (by rw [← stream_cons, hlen]; omega)
    rw [← stream_cons, toU32_of_lt hp] at hval
    obtain ⟨hret, heff⟩ := pnmRecvFrame_returns as (stream (p :: ps)) (by omega)
    obtain ⟨hnf, hrest⟩ := pnmRecvFrame_not_failed as (stream (p :: ps)) hf (by omega)
    have htrue : (pnmRecvFrame as (stream (p :: ps))).ret = some true := ret_true hret hnf
    obtain ⟨hl, -, hw⟩ := pnmRecvFrame_true as _ htrue
    obtain ⟨hbuf, -⟩ := pnmRecvFrame_frame as hp (List.prefix_refl (stream (p :: ps))) htrue
    have hnext : (pnmRecvFrame as (stream (p :: ps))).wire = stream ps := by
      rw [hw, hval, stream_cons, List.drop_left' (by rw [frame_length, toU32_of_lt hp])]
    have ht := ih (pnmRecvFrame as (stream (p :: ps))).rest
      (fun q hq => hps q (List.mem_cons_of_mem _ hq)) hrest (by omega)
    rw [List.length_cons, recvFrames, if_neg hret, accepted_cons_true htrue, hbuf, hnext, ht]

theorem not_failed_upTo {s : ℕ → Answer} (hs : ∀ i, s i ≠ .failed) (k : ℕ) :
    .failed ∉ upTo s k := by
  intro hm
  obtain ⟨i, hi⟩ := mem_upTo hm
  exact hs i hi

/-- Frames over one stream. For every segmentation and every break the true
returns deliver a prefix of the payloads; with no break all of them arrive once
the kernel has answered often enough; and no call runs for ever. -/
theorem frames_delivered_in_order (payloads : List Bytes)
    (hlen : ∀ p ∈ payloads, p.length < 2 ^ 32) :
    (∀ (sends recvs : List Answer) (calls : ℕ) (wire : Bytes),
      wire <+: (sendFrames sends payloads).out →
        accepted (recvFrames recvs calls wire) <+: payloads) ∧
    (∀ s r : ℕ → Answer, Lively s → Lively r → (∀ i, s i ≠ .failed) → (∀ i, r i ≠ .failed) →
      ∃ m n, ∀ m' ≥ m, ∀ n' ≥ n,
        (sendFrames (upTo s m') payloads).ret = some true ∧
        accepted (recvFrames (upTo r n') payloads.length
          (sendFrames (upTo s m') payloads).out) = payloads) ∧
    (∀ s : ℕ → Answer, Lively s → ∀ data, ∃ k, (pnmSendFrame (upTo s k) data).ret ≠ none) ∧
    (∀ r : ℕ → Answer, Lively r → ∀ wire, ∃ k, (pnmRecvFrame (upTo r k) wire).ret ≠ none) := by
  refine ⟨?_, ?_, ?_, ?_⟩
  · intro sends recvs calls wire hw
    have hstream := hw.trans (sendFrames_prefix_stream sends payloads)
    exact accepted_prefix_of_stream recvs calls payloads hlen wire hstream
  · intro s r hs hr hsf hrf
    obtain ⟨m, hm⟩ := hs.enough (stream payloads).length
    obtain ⟨n, hn⟩ := hr.enough (stream payloads).length
    refine ⟨m, n, fun m' hm' n' hn' => ?_⟩
    have hsent := sendFrames_ok (upTo s m') payloads (not_failed_upTo hsf m')
      (hm.trans (effective_upTo_mono s hm'))
    have hgot := recvFrames_ok (upTo r n') payloads hlen (not_failed_upTo hrf n')
      (hn.trans (effective_upTo_mono r hn'))
    rw [sendFrames_true _ _ hsent]
    exact ⟨hsent, hgot⟩
  · intro s hs data
    obtain ⟨k, hk⟩ := hs.enough (frame data).length
    exact ⟨k, (pnmSendFrame_returns _ _ hk).1⟩
  · intro r hr wire
    obtain ⟨k, hk⟩ := hr.enough (4 + leVal (wire.take 4))
    exact ⟨k, (pnmRecvFrame_returns _ _ hk).1⟩

/-- One byte at a time with an interruption, first cut inside the third frame,
then with nothing broken. -/
theorem frames_delivered_in_order_three :
    (accepted (recvFrames (.interrupted :: List.replicate 14 (.moved 1)) 5
        (sendFrames (List.replicate 14 (.moved 0)) [[7, 8], [], [9]]).out) = [[7, 8], []] ∧
      accepted (recvFrames (.interrupted :: List.replicate 14 (.moved 1)) 5
        (sendFrames (List.replicate 14 (.moved 0)) [[7, 8], [], [9]]).out) <+: [[7, 8], [], [9]]) ∧
    ∃ m n, ∀ m' ≥ m, ∀ n' ≥ n,
      (sendFrames (upTo (fun _ => .moved 0) m') [[7, 8], [], [9]]).ret = some true ∧
      accepted (recvFrames (upTo (fun _ => .moved 0) n') 3
        (sendFrames (upTo (fun _ => .moved 0) m') [[7, 8], [], [9]]).out) = [[7, 8], [], [9]] := by
  have hd := frames_delivered_in_order [[7, 8], [], [9]] (by decide)
  have hlive : Lively fun _ => Answer.moved 0 := fun i => ⟨i, Nat.le_refl i, by simp⟩
  refine ⟨⟨by decide, hd.1 _ _ _ _ (List.prefix_refl _)⟩, ?_⟩
  exact hd.2.1 _ _ hlive hlive (fun _ => by simp) (fun _ => by simp)

end PnmCompaction.Ipc.Frame
