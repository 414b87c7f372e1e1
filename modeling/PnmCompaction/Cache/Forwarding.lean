import PnmCompaction.Cache.Service

/-!
# The data step of a forwarded response

cache.cc 867-898: a response that is not used to fill the cache passes its data
on to the target. The bytes of a packet have addresses; `forwardData` copies
from the start of one buffer to the start of the other.
-/

namespace PnmCompaction.Cache

open PnmCompaction.Lib.Checked PnmCompaction.Lib.LittleEndian

/-! ### Bytes at addresses -/

def Packet.Covers (p : Packet) (a : ℕ) : Prop := p.addr ≤ a ∧ a < p.addr + p.size

def Packet.byteAt (p : Packet) (a : ℕ) : Option Byte := p.data[a - p.addr]?

/-- The buffer holds as many bytes as the packet has. -/
def Packet.Buffered (p : Packet) : Prop := p.data.length = p.size

instance (p : Packet) (a : ℕ) : Decidable (p.Covers a) := inferInstanceAs (Decidable (_ ∧ _))

instance (p : Packet) : Decidable p.Buffered := inferInstanceAs (Decidable (_ = _))

/-- At every address that both packets cover they hold the same byte. -/
def Agree (resp p : Packet) : Prop :=
  ∀ a, resp.Covers a → p.Covers a → p.byteAt a = resp.byteAt a

/-- The target starts where the response starts, and is no longer. -/
def Aligned (resp p : Packet) : Prop :=
  resp.addr = p.addr ∧ resp.isSecure = p.isSecure ∧ p.size ≤ resp.size

instance (resp p : Packet) : Decidable (Aligned resp p) :=
  inferInstanceAs (Decidable (_ ∧ _ ∧ _))

theorem getElem?_memcpy {dst src : Bytes} {n i : ℕ} (hi : i < n) (hn : n ≤ src.length) :
    (memcpy dst src n)[i]? = src[i]? := by
  have hlen : i < (src.take n).length := by
    rw [List.length_take]
    omega
  rw [memcpy, List.getElem?_append_left hlen, List.getElem?_take_of_lt hi]

theorem memcpy_eq_self_iff (dst src : Bytes) (n : ℕ) :
    memcpy dst src n = dst ↔ src.take n = dst.take n := by
  constructor
  · intro h
    rw [memcpy] at h
    nth_rewrite 2 [← List.take_append_drop n dst] at h
    exact List.append_cancel_right h
  · intro h
    rw [memcpy, h, List.take_append_drop]

/-! ### What the step does -/

/-- The step may write to the target's buffer: the first bytes of the response
over the first bytes of the target. -/
def Copies (resp p : Packet) : Prop :=
  Aligned resp p ∨ (resp.cmd.hasData = true ∧ p.cmd.hasData = true)

instance (resp p : Packet) : Decidable (Copies resp p) := inferInstanceAs (Decidable (_ ∨ _))

/-- The two branches that copy differ in the length only, which is the smaller size. -/
theorem forwardData_eq {resp p : Packet} (hread : resp.cmd.isRead = true) :
    forwardData resp p =
      if Copies resp p then do
        ensure (p.isMaskedWrite = false) .maskedData
        pure { p with data := memcpy p.data resp.data (min resp.size p.size) }
      else pure p := by
  unfold forwardData
  rw [if_pos hread]
  by_cases ha : resp.addr = p.addr ∧ resp.isSecure = p.isSecure ∧ p.size ≤ resp.size
  · have hmin : min resp.size p.size = p.size := Nat.min_eq_right ha.2.2
    have hc : Copies resp p := .inl ha
    rw [if_pos ha, if_pos hc, hmin]
    rfl
  · rw [if_neg ha]
    by_cases hd : (resp.cmd.hasData && p.cmd.hasData) = true
    · have hc : Copies resp p := .inr (Bool.and_eq_true_iff.mp hd)
      rw [if_pos hd, if_pos hc]
    · have hc : ¬Copies resp p := by
        rintro (h | h)
        · exact ha h
        · exact hd (Bool.and_eq_true_iff.mpr h)
      rw [if_neg hd, if_neg hc]

theorem forwardData_ok_iff {resp p q : Packet} (hread : resp.cmd.isRead = true) :
    forwardData resp p = .ok q ↔
      (Copies resp p ∧ p.isMaskedWrite = false ∧
        q = { p with data := memcpy p.data resp.data (min resp.size p.size) }) ∨
      (¬Copies resp p ∧ q = p) := by
  rw [forwardData_eq hread]
  by_cases hc : Copies resp p
  · rw [if_pos hc]
    simp only [bind_ok_iff, ensure_ok_iff, exists_const, pure_ok_iff, hc, true_and,
      not_true_eq_false, false_and, or_false]
    exact and_congr_right fun _ => eq_comm
  · rw [if_neg hc]
    simp only [pure_ok_iff, hc, false_and, not_false_eq_true, true_and, false_or]
    exact eq_comm

/-! ### When the data is right -/

/-- The step completes; a read has the response's byte at every address that both
cover, and a write has its payload as it was. -/
def DataRight (resp p : Packet) : Prop :=
  ∃ q, forwardData resp p = .ok q ∧
    (p.cmd.isRead = true → ∀ a, resp.Covers a → p.Covers a → q.byteAt a = resp.byteAt a) ∧
    (p.cmd.isWrite = true → q.data = p.data)

/-- Nothing is copied onto the payload, or only what it begins with already. -/
def PayloadSafe (resp p : Packet) : Prop :=
  ¬Copies resp p ∨
    (p.isMaskedWrite = false ∧
      p.data.take (min resp.size p.size) = resp.data.take (min resp.size p.size))

theorem hasData_iff_isWrite {cmd : MemCmd} (h : cmd.isRequest = true) :
    cmd.hasData = true ↔ cmd.isWrite = true := by
  revert h
  cases cmd <;> decide

theorem isWrite_of_masked {p : Packet} (h : p.isMaskedWrite = true) : p.cmd.isWrite = true := by
  rw [Packet.isMaskedWrite, Bool.and_eq_true, beq_iff_eq] at h
  rw [h.1]
  decide

/-- A copy between packets that start at the same address moves each byte to its place. -/
theorem Aligned.copied {resp p : Packet} (ha : Aligned resp p) (hb : resp.Buffered) {a : ℕ}
    (hp : p.Covers a) :
    Packet.byteAt { p with data := memcpy p.data resp.data (min resp.size p.size) } a =
      resp.byteAt a := by
  have hmin : min resp.size p.size = p.size := Nat.min_eq_right ha.2.2
  obtain ⟨hle, hlt⟩ := hp
  have hlen : p.size ≤ resp.data.length := by
    rw [hb]
    exact ha.2.2
  unfold Packet.byteAt
  dsimp only
  rw [hmin, getElem?_memcpy (by omega) hlen, ha.1]

theorem payloadSafe_of_dataRight {resp p : Packet} (hread : resp.cmd.isRead = true)
    (h : DataRight resp p) (hw : p.cmd.isWrite = true) : PayloadSafe resp p := by
  obtain ⟨q, hq, -, hwrite⟩ := h
  rcases (forwardData_ok_iff hread).mp hq with ⟨hc, hm, rfl⟩ | ⟨hc, -⟩
  · exact .inr ⟨hm, ((memcpy_eq_self_iff _ _ _).mp (hwrite hw)).symm⟩
  · exact .inl hc

theorem agree_of_dataRight {resp p : Packet} (hread : resp.cmd.isRead = true)
    (hreq : p.isRequest = true) (h : DataRight resp p) (hp : p.cmd.isRead = true)
    (ha : ¬Aligned resp p) : Agree resp p := by
  obtain ⟨q, hq, hbytes, hwrite⟩ := h
  rcases (forwardData_ok_iff hread).mp hq with ⟨hc, -, rfl⟩ | ⟨-, rfl⟩
  · -- a target that is copied to without being aligned is a write, and keeps its payload
    have hw := (hasData_iff_isWrite hreq).mp (hc.resolve_left ha).2
    have hdata : memcpy p.data resp.data (min resp.size p.size) = p.data := hwrite hw
    intro a hra hpa
    have hbyte := hbytes hp a hra hpa
    rw [hdata] at hbyte
    exact hbyte
  · exact hbytes hp

theorem dataRight_of_copies {resp p : Packet} (hread : resp.cmd.isRead = true)
    (hreq : p.isRequest = true) (hb : resp.Buffered) (hc : Copies resp p)
    (hsafe : p.cmd.isWrite = true → PayloadSafe resp p)
    (hplace : p.cmd.isRead = true → Aligned resp p ∨ Agree resp p) : DataRight resp p := by
  have hpayload : p.cmd.isWrite = true →
      memcpy p.data resp.data (min resp.size p.size) = p.data := by
    intro hw
    obtain ⟨-, htake⟩ := (hsafe hw).resolve_left (not_not_intro hc)
    exact (memcpy_eq_self_iff _ _ _).mpr htake.symm
  have hm : p.isMaskedWrite = false := by
    by_contra hm
    have hmasked := Bool.eq_true_of_not_eq_false hm
    exact hm ((hsafe (isWrite_of_masked hmasked)).resolve_left (not_not_intro hc)).1
  refine ⟨_, (forwardData_ok_iff hread).mpr (.inl ⟨hc, hm, rfl⟩), ?_, hpayload⟩
  intro hp a hra hpa
  by_cases ha : Aligned resp p
  · exact ha.copied hb hpa
  · have hw := (hasData_iff_isWrite hreq).mp (hc.resolve_left ha).2
    rw [hpayload hw]
    exact (hplace hp).resolve_left ha a hra hpa

/-- The data step leaves a target right exactly when a write has nothing foreign
copied onto it, and a read starts at the response's address and is no longer, or
its buffer holds the common bytes beforehand. -/
theorem forwarded_data_iff (resp p : Packet) (hread : resp.cmd.isRead = true)
    (hreq : p.isRequest = true) (hb : resp.Buffered) :
    DataRight resp p ↔
      (p.cmd.isWrite = true → PayloadSafe resp p) ∧
      (p.cmd.isRead = true → Aligned resp p ∨ Agree resp p) := by
  constructor
  · intro h
    refine ⟨payloadSafe_of_dataRight hread h, fun hp => ?_⟩
    by_cases ha : Aligned resp p
    · exact .inl ha
    · exact .inr (agree_of_dataRight hread hreq h hp ha)
  · rintro ⟨hsafe, hplace⟩
    by_cases hc : Copies resp p
    · exact dataRight_of_copies hread hreq hb hc hsafe hplace
    · refine ⟨p, (forwardData_ok_iff hread).mpr (.inr ⟨hc, rfl⟩), fun hp => ?_, fun _ => rfl⟩
      exact (hplace hp).resolve_left fun ha => hc (.inl ha)

-- eight bytes read from address 0, and targets of four bytes
def eightBytes : Packet :=
  { Packet.plain .readResp true with size := 8, data := [1, 2, 3, 4, 5, 6, 7, 8] }

def fourBytes (cmd : MemCmd) (addr : ℕ) (data : Bytes) : Packet :=
  { Packet.plain cmd true with addr := addr, size := 4, data := data }

theorem forwarded_data_iff_aligned :
    DataRight eightBytes (fourBytes .readReq 0 [0, 0, 0, 0]) := by
  refine (forwarded_data_iff _ _ (by decide) (by decide) (by decide)).mpr ⟨?_, ?_⟩
  · exact fun hw => absurd hw (by decide)
  · exact fun _ => .inl (by decide)

/-- A read of the upper half gets none of its four bytes, though the response has
them all; a write to the lower half loses its payload to the response. -/
theorem mismatched_targets_corrupted :
    forwardData eightBytes (fourBytes .readReq 4 [0, 0, 0, 0]) =
      .ok (fourBytes .readReq 4 [0, 0, 0, 0]) ∧
    eightBytes.byteAt 4 = some 5 ∧
    (fourBytes .readReq 4 [0, 0, 0, 0]).byteAt 4 = some 0 ∧
    forwardData eightBytes (fourBytes .writeReq 0 [9, 9, 9, 9]) =
      .ok (fourBytes .writeReq 0 [1, 2, 3, 4]) ∧
    ¬DataRight eightBytes (fourBytes .readReq 4 [0, 0, 0, 0]) ∧
    ¬DataRight eightBytes (fourBytes .writeReq 0 [9, 9, 9, 9]) := by
  have hread : forwardData eightBytes (fourBytes .readReq 4 [0, 0, 0, 0]) =
      .ok (fourBytes .readReq 4 [0, 0, 0, 0]) := by rfl
  have hwrite : forwardData eightBytes (fourBytes .writeReq 0 [9, 9, 9, 9]) =
      .ok (fourBytes .writeReq 0 [1, 2, 3, 4]) := by rfl
  refine ⟨hread, rfl, rfl, hwrite, ?_, ?_⟩
  · rintro ⟨q, hq, hbytes, -⟩
    obtain rfl := Except.ok.inj (hread.symm.trans hq)
    exact absurd (hbytes (by decide) 4 (by decide) (by decide)) (by decide)
  · rintro ⟨q, hq, -, hsame⟩
    obtain rfl := Except.ok.inj (hwrite.symm.trans hq)
    exact absurd (hsame (by decide)) (by decide)

end PnmCompaction.Cache
