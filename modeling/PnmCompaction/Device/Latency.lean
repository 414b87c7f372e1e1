import PnmCompaction.Device.Invariant

/-!
# The latency model

What a `CMD_SUBMIT` schedules (pnm_compactor.cc 134-166) against the formula of
pnm_compactor.hh 56 and of docs/GEM5_CUSTOMIZATIONS.md 43-62. The source adds the
two byte counts in `uint64_t`, while its guard looks at one of them only, and
converts the sum to `double` for the product.
-/

namespace PnmCompaction.Device

open PnmCompaction.Lib.Exec

/-- `(src + dst) * bandwidth + process_latency` in whole ticks, with nothing cut off. -/
def modelDelay (p : Params) (src dst : ℕ) : ℕ :=
  ⌊((src + dst : ℕ) : ℚ) * p.bandwidth⌋₊ + p.processLatency

/-- The register write took `d` to `d'` by accepting a job. -/
def Accepts (p : Params) (d d' : Dev) : Prop :=
  ∃ off w data total, write p d off w data = .ok (d', .accepted total)

/-- The completion falls below 2^64 ticks, and so does the sum of the byte counts
below 2^64 bytes, unless 2^64 bytes more or less make no difference of a tick. -/
def Fits (p : Params) (d : Dev) : Prop :=
  d.curTick + modelDelay p d.srcBytesReg d.dstBytesReg < 2 ^ 64 ∧
  (d.srcBytesReg + d.dstBytesReg < 2 ^ 64 ∨
    ⌊((d.srcBytesReg + d.dstBytesReg : ℕ) : ℚ) * p.bandwidth⌋₊ =
      ⌊((d.srcBytesReg + d.dstBytesReg - 2 ^ 64 : ℕ) : ℚ) * p.bandwidth⌋₊)

theorem modelDelay_mono {p : Params} (hbw : 0 ≤ p.bandwidth) {src src' dst dst' : ℕ}
    (hs : src ≤ src') (hd : dst ≤ dst') : modelDelay p src dst ≤ modelDelay p src' dst' := by
  have hsum : ((src + dst : ℕ) : ℚ) ≤ ((src' + dst' : ℕ) : ℚ) :=
    Nat.cast_le.mpr (Nat.add_le_add hs hd)
  exact Nat.add_le_add_right (Nat.floor_mono (mul_le_mul_of_nonneg_right hsum hbw)) _

theorem Accepts.submit {p : Params} {d d' : Dev} (h : Accepts p d d') :
    d.srcBytesReg ≤ maxJobBytes ∧ d'.completeEvent = some (submitTick p d) := by
  obtain ⟨off, w, data, total, hw⟩ := h
  rcases write_cases hw with ⟨-, hn⟩ | ⟨-, hs⟩ | ⟨-, hr⟩
  · cases hn
  · rcases submit_cases hs with ⟨-, -, hn⟩ | ⟨-, -, -, hn⟩ | ⟨-, hsrc, -, t, -, ht, rfl, -⟩
    · cases hn
    · cases hn
    · exact ⟨hsrc, congrArg some ht⟩
  · have hn := (Prod.mk.inj hr).2
    split at hn <;> cases hn

/-- What the 64-bit sum costs: nothing, or 2^64 bytes, since the guard keeps the
first of the two counts small. -/
theorem totalBytes_floor_iff {p : Params} {d : Dev} (hsrc : d.srcBytesReg ≤ maxJobBytes)
    (hdst : d.dstBytesReg < 2 ^ 64) :
    ⌊((totalBytes d : ℕ) : ℚ) * p.bandwidth⌋₊ =
        ⌊((d.srcBytesReg + d.dstBytesReg : ℕ) : ℚ) * p.bandwidth⌋₊ ↔
      d.srcBytesReg + d.dstBytesReg < 2 ^ 64 ∨
        ⌊((d.srcBytesReg + d.dstBytesReg : ℕ) : ℚ) * p.bandwidth⌋₊ =
          ⌊((d.srcBytesReg + d.dstBytesReg - 2 ^ 64 : ℕ) : ℚ) * p.bandwidth⌋₊ := by
  by_cases hsum : d.srcBytesReg + d.dstBytesReg < 2 ^ 64
  · have htotal : totalBytes d = d.srcBytesReg + d.dstBytesReg := Nat.mod_eq_of_lt hsum
    rw [htotal]
    exact iff_of_true rfl (.inl hsum)
  · have hmax : maxJobBytes < 2 ^ 64 := by decide
    have htotal : totalBytes d = d.srcBytesReg + d.dstBytesReg - 2 ^ 64 := by
      unfold totalBytes
      omega
    rw [htotal]
    exact ⟨fun h => .inr h.symm, fun h => (h.resolve_left hsum).symm⟩

/-- The product as the source computes it. -/
def doubleProduct (p : Params) (total : ℕ) : ℚ := p.toDouble (p.toDouble total * p.bandwidth)

/-- The cast of the product back to `uint64_t` is defined. -/
def Castable (p : Params) (d : Dev) : Prop :=
  0 ≤ doubleProduct p (totalBytes d) ∧ doubleProduct p (totalBytes d) < 2 ^ 64

/-- Computing in `double` does not change the integer part of the product. -/
def Exact (p : Params) (d : Dev) : Prop :=
  Castable p d ∧
    ⌊doubleProduct p (totalBytes d)⌋₊ = ⌊((totalBytes d : ℕ) : ℚ) * p.bandwidth⌋₊

variable {p : Params} {d : Dev}

theorem bwLatency_eq (hbw : 0 ≤ p.bandwidth) (total : ℕ) :
    bwLatency p total = p.castU64 (doubleProduct p total) := by
  have hzero : p.toDouble 0 = 0 := by
    have h := p.toDouble_nat 0 (by decide)
    rwa [Nat.cast_zero] at h
  unfold bwLatency doubleProduct
  split
  · rfl
  · next hno =>
    -- either factor is zero, so the product is
    have hprod : p.toDouble total * p.bandwidth = 0 := by
      rcases not_and_or.mp hno with h0 | h0
      · rw [le_antisymm (not_lt.mp h0) hbw, mul_zero]
      · rw [Nat.eq_zero_of_not_pos h0, Nat.cast_zero, hzero, zero_mul]
    rw [hprod, hzero, p.castU64_eq 0 le_rfl (by norm_num), Nat.floor_zero]

theorem Castable.bwLatency_eq (h : Castable p d) (hbw : 0 ≤ p.bandwidth) :
    bwLatency p (totalBytes d) = ⌊doubleProduct p (totalBytes d)⌋₊ := by
  rw [Device.bwLatency_eq hbw]
  exact p.castU64_eq _ h.1 h.2

theorem Castable.floor_lt (h : Castable p d) : ⌊doubleProduct p (totalBytes d)⌋₊ < 2 ^ 64 := by
  refine (Nat.floor_lt h.1).mpr ?_
  exact_mod_cast h.2

/-- When the prescribed completion is a tick at all, the scheduled one is it
exactly if the computed product has the prescribed integer part. -/
theorem submitTick_eq_iff (hbw : 0 ≤ p.bandwidth) (hcast : Castable p d)
    (h : d.curTick + modelDelay p d.srcBytesReg d.dstBytesReg < 2 ^ 64) :
    submitTick p d = d.curTick + modelDelay p d.srcBytesReg d.dstBytesReg ↔
      ⌊doubleProduct p (totalBytes d)⌋₊ =
        ⌊((d.srcBytesReg + d.dstBytesReg : ℕ) : ℚ) * p.bandwidth⌋₊ := by
  have hlt := hcast.floor_lt
  unfold modelDelay at h ⊢
  unfold submitTick totalLatency
  rw [hcast.bwLatency_eq hbw]
  constructor
  · intro heq
    omega
  · intro heq
    rw [heq, Nat.mod_eq_of_lt (by omega), Nat.mod_eq_of_lt (by omega)]

/-- For a whole number of ticks per byte nothing is rounded while the product
stays below 2^53. -/
theorem exact_of_le {k : ℕ} (hk : p.bandwidth = k)
    (hbytes : d.srcBytesReg + d.dstBytesReg ≤ 2 ^ 53)
    (hticks : (d.srcBytesReg + d.dstBytesReg) * k ≤ 2 ^ 53) : Exact p d := by
  have htotal : totalBytes d = d.srcBytesReg + d.dstBytesReg :=
    Nat.mod_eq_of_lt (lt_of_le_of_lt hbytes (by decide))
  have hprod : doubleProduct p (totalBytes d) =
      ((totalBytes d * k : ℕ) : ℚ) := by
    rw [doubleProduct, htotal, hk, p.toDouble_nat _ hbytes, ← Nat.cast_mul]
    exact p.toDouble_nat _ hticks
  refine ⟨⟨?_, ?_⟩, ?_⟩
  · rw [hprod]
    exact Nat.cast_nonneg _
  · rw [hprod, htotal]
    have hlt : (d.srcBytesReg + d.dstBytesReg) * k < 2 ^ 64 := lt_of_le_of_lt hticks (by decide)
    exact_mod_cast hlt
  · rw [hprod, hk, Nat.cast_mul]

/-- A job whose product is not changed by rounding completes after the prescribed
delay exactly when it fits, and a job that fits exactly when its product is not
changed; among jobs that meet both conditions more bytes never take less time. At
a whole number of ticks per byte nothing is rounded up to 2^53 bytes and ticks. -/
theorem completion_delay_iff_fits (p : Params) (hbw : 0 ≤ p.bandwidth) :
    (∀ d d', d.dstBytesReg < 2 ^ 64 → Accepts p d d' → Exact p d →
      (d'.completeEvent = some (d.curTick + modelDelay p d.srcBytesReg d.dstBytesReg) ↔
        Fits p d)) ∧
    (∀ d d', d.dstBytesReg < 2 ^ 64 → Accepts p d d' → Fits p d → Castable p d →
      (d'.completeEvent = some (d.curTick + modelDelay p d.srcBytesReg d.dstBytesReg) ↔
        Exact p d)) ∧
    (∀ d d' e e' t u, d.dstBytesReg < 2 ^ 64 → e.dstBytesReg < 2 ^ 64 →
      Accepts p d d' → Accepts p e e' → Fits p d → Exact p d → Fits p e → Exact p e →
      d.srcBytesReg ≤ e.srcBytesReg → d.dstBytesReg ≤ e.dstBytesReg →
      d'.completeEvent = some (d.curTick + t) → e'.completeEvent = some (e.curTick + u) →
      t ≤ u) ∧
    (∀ (d : Dev) (k : ℕ), p.bandwidth = k → d.srcBytesReg + d.dstBytesReg ≤ 2 ^ 53 →
      (d.srcBytesReg + d.dstBytesReg) * k ≤ 2 ^ 53 → Exact p d) := by
  have hiff : ∀ d d', d.dstBytesReg < 2 ^ 64 → Accepts p d d' → Exact p d →
      (d'.completeEvent = some (d.curTick + modelDelay p d.srcBytesReg d.dstBytesReg) ↔
        Fits p d) := by
    rintro d d' hdst hacc ⟨hcast, hexact⟩
    obtain ⟨hsrc, hevent⟩ := hacc.submit
    rw [hevent, Option.some.injEq, Fits, ← totalBytes_floor_iff hsrc hdst]
    have htick : submitTick p d < 2 ^ 64 := Nat.mod_lt _ (by decide)
    constructor
    · intro heq
      have hlt : d.curTick + modelDelay p d.srcBytesReg d.dstBytesReg < 2 ^ 64 := by omega
      exact ⟨hlt, hexact.symm.trans ((submitTick_eq_iff hbw hcast hlt).mp heq)⟩
    · rintro ⟨hlt, hsum⟩
      exact (submitTick_eq_iff hbw hcast hlt).mpr (hexact.trans hsum)
  refine ⟨hiff, ?_, ?_, fun d k => exact_of_le⟩
  · rintro d d' hdst hacc ⟨hlt, hsum⟩ hcast
    obtain ⟨hsrc, hevent⟩ := hacc.submit
    have hfloor := (totalBytes_floor_iff hsrc hdst).mpr hsum
    rw [hevent, Option.some.injEq, submitTick_eq_iff hbw hcast hlt, Exact, hfloor]
    exact ⟨fun h => ⟨hcast, h⟩, And.right⟩
  · intro d d' e e' t u hd he hacc hacc' hfit hexact hfit' hexact' hsrc hdst ht hu
    have hmono := modelDelay_mono hbw hsrc hdst
    have ht' := (hiff d d' hd hacc hexact).mpr hfit
    have hu' := (hiff e e' he hacc' hexact').mpr hfit'
    rw [ht, Option.some.injEq] at ht'
    rw [hu, Option.some.injEq] at hu'
    omega

/-- The device before a submit at tick 7 with the given byte counts. -/
def idleWith (src dst : ℕ) : Dev :=
  { Dev.init with srcBytesReg := src, dstBytesReg := dst, curTick := 7 }

/-- The device after it, with the completion at `tick`. -/
def busyWith (src dst tick : ℕ) : Dev :=
  { idleWith src dst with
    statusReg := statusBusy, busy := true, completeEvent := some tick }

theorem completion_delay_iff_fits_4KiB :
    let d := idleWith 2048 2048
    (busyWith 2048 2048 651559).completeEvent =
      some (d.curTick + modelDelay Params.exact d.srcBytesReg d.dstBytesReg) := by
  have hall := completion_delay_iff_fits Params.exact (by decide +kernel)
  have hexact := hall.2.2.2 (idleWith 2048 2048) 37 rfl (by decide) (by decide)
  have h := hall.1 (idleWith 2048 2048) (busyWith 2048 2048 651559) (by decide)
    ⟨offCmd, .w4, cmdSubmit, 4096, by decide +kernel⟩ hexact
  have hfits : Fits Params.exact (idleWith 2048 2048) := ⟨by decide +kernel, .inl (by decide)⟩
  exact h.mpr hfits

-- rounding to 53 bits, ties to even, for values from 2^53 on
def roundDouble (x : ℚ) : ℚ :=
  if x ≤ 2 ^ 53 then x
  else
    let ulp : ℚ := 2 ^ (Nat.log2 ⌊x⌋₊ - 52)
    let low := ⌊x / ulp⌋₊
    let rest := x / ulp - low
    if 1 / 2 < rest ∨ (rest = 1 / 2 ∧ low % 2 = 1) then (low + 1) * ulp else low * ulp

-- 2^53 + 1 bytes are counted as 2^53
example : bwLatency { Params.exact with
    toDouble := roundDouble
    toDouble_nat := fun _ h => if_pos (by exact_mod_cast h) } (2 ^ 53 + 1) = 37 * 2 ^ 53 := by
  decide +kernel

/-- One byte to read and 2^64 - 1 to write: the sum is 0, and the job is over
after the fixed latency alone, before one that reads the byte and writes nothing. -/
theorem wrapped_job_almost_free :
    (∃ d', Accepts Params.exact (idleWith 1 (2 ^ 64 - 1)) d' ∧
      d'.completeEvent = some 500007 ∧
      500007 < 7 + modelDelay Params.exact 1 (2 ^ 64 - 1)) ∧
    (∃ d', Accepts Params.exact (idleWith 1 0) d' ∧ d'.completeEvent = some 500044) := by
  refine ⟨⟨busyWith 1 (2 ^ 64 - 1) 500007, ⟨offCmd, .w4, cmdSubmit, 0, ?_⟩, rfl, ?_⟩,
    ⟨busyWith 1 0 500044, ⟨offCmd, .w4, cmdSubmit, 1, ?_⟩, rfl⟩⟩
  · decide +kernel
  · decide +kernel
  · decide +kernel

end PnmCompaction.Device
