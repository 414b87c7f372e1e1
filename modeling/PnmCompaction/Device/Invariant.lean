import PnmCompaction.Device.Compactor

/-!
# Invariants of the device over whole runs

`submit_cases` and `write_cases` say once what a register write can do; the
coherence of `busy`, `STATUS` and the event, and the balance of submitted jobs,
follow from them step by step.
-/

namespace PnmCompaction.Device

open PnmCompaction.Lib.Exec

variable {p : Params} {d d' : Dev} {n : Note}

/-! ### What a step can do -/

def submitTick (p : Params) (d : Dev) : ℕ := (d.curTick + totalLatency p (totalBytes d)) % 2 ^ 64

theorem submit_eq (p : Params) (d : Dev) :
    submit p d =
      if d.busy then .ok (d, .ignored)
      else if maxJobBytes < d.srcBytesReg then .ok ({ d with statusReg := statusError }, .rejected)
      else if d.completeEvent.isSome then .error .scheduledTwice
      else if submitTick p d < d.curTick then .error .scheduledInPast
      else .ok ({ d with
        busy := true
        statusReg := statusBusy
        completeEvent := some (submitTick p d) }, .accepted (totalBytes d)) := by
  unfold submit schedule submitTick
  dsimp only
  split
  · rfl
  split
  · rfl
  -- the conditions left are those of `schedule`, inside the `match`
  by_cases he : d.completeEvent.isSome = true
  · rw [if_pos he, if_pos he]
  rw [if_neg he, if_neg he]
  by_cases htick : (d.curTick + totalLatency p (totalBytes d)) % 2 ^ 64 < d.curTick
  · rw [if_pos htick, if_pos htick]
  · rw [if_neg htick, if_neg htick]

theorem submit_cases (h : submit p d = .ok (d', n)) :
    (d.busy = true ∧ d' = d ∧ n = .ignored) ∨
    (d.busy = false ∧ maxJobBytes < d.srcBytesReg ∧
      d' = { d with statusReg := statusError } ∧ n = .rejected) ∨
    (d.busy = false ∧ d.srcBytesReg ≤ maxJobBytes ∧ d.completeEvent = none ∧
      ∃ tick, d.curTick ≤ tick ∧ tick = (d.curTick + totalLatency p (totalBytes d)) % 2 ^ 64 ∧
        d' = { d with busy := true, statusReg := statusBusy, completeEvent := some tick } ∧
        n = .accepted (totalBytes d)) := by
  rw [submit_eq] at h
  split at h
  · next hb =>
    obtain ⟨rfl, rfl⟩ := Prod.mk.inj (Except.ok.inj h)
    exact .inl ⟨hb, rfl, rfl⟩
  next hb =>
  have hidle : d.busy = false := Bool.eq_false_iff.mpr hb
  split at h
  · next hm =>
    obtain ⟨rfl, rfl⟩ := Prod.mk.inj (Except.ok.inj h)
    exact .inr (.inl ⟨hidle, hm, rfl, rfl⟩)
  next hm =>
  split at h
  · cases h
  next he =>
  split at h
  · cases h
  next htick =>
  obtain ⟨rfl, rfl⟩ := Prod.mk.inj (Except.ok.inj h)
  exact .inr (.inr ⟨hidle, not_lt.mp hm, Option.not_isSome_iff_eq_none.mp he, _,
    not_lt.mp htick, rfl, rfl, rfl⟩)

theorem reset_fst (d : Dev) :
    (reset d).1 = { d with completeEvent := none, busy := false, statusReg := 0 } := rfl

def isCommand (cmd off : ℕ) (w : Width) (data : ℕ) : Prop :=
  off = offCmd ∧ pktGet w data % 2 ^ 32 = cmd

instance (cmd off : ℕ) (w : Width) (data : ℕ) : Decidable (isCommand cmd off w data) :=
  inferInstanceAs (Decidable (_ ∧ _))

def setRegisters (d : Dev) (off : ℕ) (w : Width) (data : ℕ) : Dev :=
  { d with
    srcBytesReg := if off = offSrcBytes then pktGet w data else d.srcBytesReg
    dstBytesReg := if off = offDstBytes then pktGet w data else d.dstBytesReg }

theorem write_eq (p : Params) (d : Dev) (off : ℕ) (w : Width) (data : ℕ) :
    write p d off w data =
      if isCommand cmdSubmit off w data then submit p d
      else if isCommand cmdReset off w data then .ok (reset d)
      else .ok (setRegisters d off w data, .quiet) := by
  by_cases hsrc : off = offSrcBytes
  · rw [hsrc]
    rfl
  by_cases hdst : off = offDstBytes
  · rw [hdst]
    rfl
  unfold write isCommand setRegisters
  dsimp only
  rw [if_neg hsrc, if_neg hdst, if_neg hsrc, if_neg hdst]
  by_cases hcmd : off = offCmd
  · rw [if_pos hcmd]
    simp only [hcmd, true_and]
  · rw [if_neg hcmd]
    simp only [hcmd, false_and, if_false]

/-- A register write leaves the job alone, cancels it, or submits one. -/
theorem write_cases {off : ℕ} {w : Width} {data : ℕ} (h : write p d off w data = .ok (d', n)) :
    (d' = setRegisters d off w data ∧ n = .quiet) ∨
    (isCommand cmdSubmit off w data ∧ submit p d = .ok (d', n)) ∨
    (isCommand cmdReset off w data ∧ (d', n) = reset d) := by
  rw [write_eq] at h
  split at h
  · next hcmd => exact .inr (.inl ⟨hcmd, h⟩)
  split at h
  · next hcmd => exact .inr (.inr ⟨hcmd, (Except.ok.inj h).symm⟩)
  · obtain ⟨rfl, rfl⟩ := Prod.mk.inj (Except.ok.inj h)
    exact .inl ⟨rfl, rfl⟩

/-! The four writes of a doorbell. -/

theorem write_cmdReset (p : Params) (d : Dev) : write p d offCmd .w4 cmdReset = .ok (reset d) := rfl

theorem write_src (p : Params) (d : Dev) (v : ℕ) :
    write p d offSrcBytes .w8 v = .ok ({ d with srcBytesReg := v % 2 ^ 64 }, .quiet) := rfl

theorem write_dst (p : Params) (d : Dev) (v : ℕ) :
    write p d offDstBytes .w8 v = .ok ({ d with dstBytesReg := v % 2 ^ 64 }, .quiet) := rfl

theorem write_cmdSubmit (p : Params) (d : Dev) : write p d offCmd .w4 cmdSubmit = submit p d := rfl

theorem advance_eq {tick : ℕ} (h : advance d tick = some d') : d' = { d with curTick := tick } := by
  unfold advance at h
  split at h
  · exact (Option.some.inj h).symm
  · cases h

def bookedStats (p : Params) (d : Dev) : Stats where
  bytesProcessed := p.toDouble (d.stats.bytesProcessed + p.toDouble (totalBytes d))
  jobsCompleted := p.toDouble (d.stats.jobsCompleted + 1)

theorem onComplete_fst (p : Params) (d : Dev) :
    (onComplete p d).1 = { d with
      stats := bookedStats p d
      dmaRecord := if p.useDma then some (dmaBytes p (bookedStats p d)) else d.dmaRecord
      statusReg := statusDone
      busy := false
      drainState := if d.drainState = .draining then .drained else d.drainState } := by
  unfold onComplete signalDrainDone
  dsimp only
  split
  · next hd => simp only [hd, bookedStats]
  · rfl

/-- What an action can do; all but the completion first move the clock. -/
inductive Effect (p : Params) (d : Dev) : Action → Dev → Note → Prop where
  | read {tick off w d1} (clock : advance d tick = some d1) :
      Effect p d (.mmioRead tick off w) d1 (.value (read p d1 off w))
  | registers {tick off w data d1} (clock : advance d tick = some d1) :
      Effect p d (.mmioWrite tick off w data) (setRegisters d1 off w data) .quiet
  | submit {tick off w data d1 d' n} (clock : advance d tick = some d1)
      (cmd : isCommand cmdSubmit off w data) (run : submit p d1 = .ok (d', n)) :
      Effect p d (.mmioWrite tick off w data) d' n
  | reset {tick off w data d1} (clock : advance d tick = some d1)
      (cmd : isCommand cmdReset off w data) :
      Effect p d (.mmioWrite tick off w data) (reset d1).1 (reset d1).2
  | completion {tick} (event : d.completeEvent = some tick) :
      Effect p d .completion
        (onComplete p { d with curTick := tick, completeEvent := none }).1
        (onComplete p { d with curTick := tick, completeEvent := none }).2
  | drainRequest {tick d1} (clock : advance d tick = some d1) :
      Effect p d (.drainRequest tick) (dmDrain d1) .quiet
  | drainResume {tick d1} (clock : advance d tick = some d1) :
      Effect p d (.drainResume tick) { d1 with drainState := .running } .quiet
  | resetStats {tick d1} (clock : advance d tick = some d1) :
      Effect p d (.resetStats tick) { d1 with stats := ⟨0, 0⟩ } .quiet

theorem apply_sound {a : Action} (h : apply p d a = some (.ok (d', n))) : Effect p d a d' n := by
  cases a with
  | mmioRead tick off w =>
    simp only [apply, Option.map_eq_some_iff, Except.ok.injEq, Prod.mk.injEq] at h
    obtain ⟨d1, hadv, rfl, rfl⟩ := h
    exact .read hadv
  | mmioWrite tick off w data =>
    simp only [apply, Option.map_eq_some_iff] at h
    obtain ⟨d1, hadv, hw⟩ := h
    rcases write_cases hw with ⟨rfl, rfl⟩ | ⟨hcmd, hs⟩ | ⟨hcmd, hr⟩
    · exact .registers hadv
    · exact .submit hadv hcmd hs
    · obtain ⟨rfl, rfl⟩ := Prod.mk.inj hr
      exact .reset hadv hcmd
  | completion =>
    simp only [apply] at h
    split at h
    · cases h
    · next tick he =>
      obtain ⟨rfl, rfl⟩ := Prod.mk.inj (Except.ok.inj (Option.some.inj h))
      exact .completion he
  | drainRequest tick =>
    simp only [apply, Option.map_eq_some_iff, Except.ok.injEq, Prod.mk.injEq] at h
    obtain ⟨d1, hadv, rfl, rfl⟩ := h
    exact .drainRequest hadv
  | drainResume tick =>
    simp only [apply, Option.map_eq_some_iff, Except.ok.injEq, Prod.mk.injEq] at h
    obtain ⟨d1, hadv, rfl, rfl⟩ := h
    exact .drainResume hadv
  | resetStats tick =>
    simp only [apply, Option.map_eq_some_iff, Except.ok.injEq, Prod.mk.injEq] at h
    obtain ⟨d1, hadv, rfl, rfl⟩ := h
    exact .resetStats hadv

/-! ### Coherence of the job state -/

structure Coherent (d : Dev) : Prop where
  busy_iff_event : d.busy = true ↔ d.completeEvent.isSome = true
  busy_iff_status : d.busy = true ↔ d.statusReg = statusBusy
  status_range : d.statusReg = 0 ∨ d.statusReg = statusBusy ∨ d.statusReg = statusDone ∨
    d.statusReg = statusError

theorem coherent_init : Coherent Dev.init := by
  constructor <;> simp [Dev.init, statusBusy]

theorem Coherent.congr (h : Coherent d) (hb : d'.busy = d.busy)
    (he : d'.completeEvent = d.completeEvent) (hs : d'.statusReg = d.statusReg) : Coherent d' := by
  constructor
  · rw [hb, he]
    exact h.busy_iff_event
  · rw [hb, hs]
    exact h.busy_iff_status
  · rw [hs]
    exact h.status_range

theorem Coherent.advance {tick : ℕ} (h : Coherent d) (hadv : advance d tick = some d') :
    Coherent d' := by
  rw [advance_eq hadv]
  exact h.congr rfl rfl rfl

theorem Coherent.of_idle (hb : d.busy = false) (he : d.completeEvent = none)
    (hs : d.statusReg = 0 ∨ d.statusReg = statusDone ∨ d.statusReg = statusError) :
    Coherent d := by
  have hne : d.statusReg ≠ statusBusy := by
    rcases hs with h | h | h <;> rw [h] <;> decide
  constructor
  · simp [hb, he]
  · simp [hb, hne]
  · rcases hs with h | h | h
    · exact .inl h
    · exact .inr (.inr (.inl h))
    · exact .inr (.inr (.inr h))

theorem Coherent.idle (h : Coherent d) (hb : d.busy = false) : d.completeEvent = none := by
  cases he : d.completeEvent with
  | none => rfl
  | some t =>
    have hbusy := h.busy_iff_event.mpr (by rw [he]; rfl)
    rw [hb] at hbusy
    cases hbusy

theorem Coherent.submit (h : Coherent d) (hs : submit p d = .ok (d', n)) : Coherent d' := by
  rcases submit_cases hs with ⟨-, rfl, -⟩ | ⟨hb, -, rfl, -⟩ | ⟨-, -, -, tick, -, -, rfl, -⟩
  · exact h
  · exact .of_idle hb (h.idle hb) (.inr (.inr rfl))
  · constructor <;> simp

theorem coherent_reset (d : Dev) : Coherent (reset d).1 := by
  rw [reset_fst]
  exact .of_idle rfl rfl (.inl rfl)

theorem onComplete_fields (p : Params) (d : Dev) :
    (onComplete p d).1.busy = false ∧ (onComplete p d).1.completeEvent = d.completeEvent ∧
      (onComplete p d).1.statusReg = statusDone := by
  rw [onComplete_fst]
  exact ⟨rfl, rfl, rfl⟩

theorem coherent_onComplete (he : d.completeEvent = none) : Coherent (onComplete p d).1 := by
  obtain ⟨hb, hev, hst⟩ := onComplete_fields p d
  exact .of_idle hb (hev.trans he) (.inr (.inl hst))

theorem Coherent.effect {a : Action} (h : Coherent d) (he : Effect p d a d' n) : Coherent d' := by
  cases he with
  | read clock => exact h.advance clock
  | registers clock => exact (h.advance clock).congr rfl rfl rfl
  | submit clock cmd run => exact (h.advance clock).submit run
  | reset clock cmd => exact coherent_reset _
  | completion event => exact coherent_onComplete rfl
  | drainRequest clock => exact (h.advance clock).congr rfl rfl rfl
  | drainResume clock => exact (h.advance clock).congr rfl rfl rfl
  | resetStats clock => exact (h.advance clock).congr rfl rfl rfl

/-! ### Counting jobs -/

/-- A device together with the jobs it accepted, completed and gave up so far. -/
structure Counted where
  dev : Dev
  accepted : ℕ
  completed : ℕ
  cancelled : ℕ
  deriving DecidableEq, Repr

def Counted.init : Counted := ⟨Dev.init, 0, 0, 0⟩

def Counted.note (c : Counted) (d : Dev) : Note → Counted
  | .accepted _ => { c with dev := d, accepted := c.accepted + 1 }
  | .completed _ => { c with dev := d, completed := c.completed + 1 }
  | .cancelled => { c with dev := d, cancelled := c.cancelled + 1 }
  | _ => { c with dev := d }

/-- One action of a run; a failed assertion ends the simulation. -/
def step (p : Params) (c : Counted) (a : Action) : Option Counted :=
  match apply p c.dev a with
  | some (.ok (d, n)) => some (c.note d n)
  | _ => none

@[simp] theorem Counted.note_dev (c : Counted) (d : Dev) (n : Note) : (c.note d n).dev = d := by
  cases n <;> rfl

theorem step_cases {c c' : Counted} {a : Action} (h : step p c a = some c') :
    ∃ d n, apply p c.dev a = some (.ok (d, n)) ∧ c' = c.note d n := by
  unfold step at h
  split at h
  · next d n ha => exact ⟨d, n, ha, (Option.some.inj h).symm⟩
  · cases h

def pending (d : Dev) : ℕ := if d.busy then 1 else 0

structure Balanced (c : Counted) : Prop where
  coherent : Coherent c.dev
  balance : c.accepted = c.completed + c.cancelled + pending c.dev

theorem balanced_init : Balanced Counted.init := ⟨coherent_init, rfl⟩

-- an action that touches neither the job nor the counts
theorem Balanced.quiet {c : Counted} (h : Balanced c) {d : Dev} {n : Note} (hd : Coherent d)
    (hb : d.busy = c.dev.busy) (hn : c.note d n = { c with dev := d }) :
    Balanced (c.note d n) := by
  rw [hn]
  refine ⟨hd, ?_⟩
  have hbal := h.balance
  unfold pending at hbal ⊢
  rw [hb]
  exact hbal

theorem Balanced.submitted {c : Counted} {d d' : Dev} {n : Note} (h : Balanced c)
    (hd : Coherent d) (hb : d.busy = c.dev.busy) (hs : submit p d = .ok (d', n)) :
    Balanced (c.note d' n) := by
  have hd' : Coherent d' := hd.submit hs
  rcases submit_cases hs with ⟨-, rfl, rfl⟩ | ⟨-, -, rfl, rfl⟩ | ⟨hidle, -, -, tick, -, -, rfl, rfl⟩
  · exact h.quiet hd' hb rfl
  · exact h.quiet hd' hb rfl
  · refine ⟨hd', ?_⟩
    have hbal := h.balance
    rw [hb] at hidle
    simp only [pending, hidle, Bool.false_eq_true, if_false, Counted.note, if_true] at hbal ⊢
    omega

theorem Balanced.reset {c : Counted} {d : Dev} (h : Balanced c) (hd : Coherent d)
    (hb : d.busy = c.dev.busy) : Balanced (c.note (reset d).1 (reset d).2) := by
  have hbal := h.balance
  have hev := hd.busy_iff_event
  cases hbusy : d.busy with
  | true =>
    have hsome := hev.mp hbusy
    refine ⟨by rw [Counted.note_dev]; exact coherent_reset d, ?_⟩
    rw [hb] at hbusy
    simp only [Device.reset, hsome, if_true, Counted.note, pending, hbusy, Bool.false_eq_true,
      if_false] at hbal ⊢
    omega
  | false =>
    have hnone := hd.idle hbusy
    have hquiet : (Device.reset d).2 = .quiet := by
      simp only [Device.reset, hnone, Option.isSome_none, Bool.false_eq_true, if_false]
    rw [hquiet]
    exact h.quiet (coherent_reset d) (by rw [← hb, hbusy]; rfl) rfl

theorem Balanced.completed {c : Counted} {tick : ℕ} (h : Balanced c)
    (he : c.dev.completeEvent = some tick) :
    Balanced (c.note (onComplete p { c.dev with curTick := tick, completeEvent := none }).1
      (onComplete p { c.dev with curTick := tick, completeEvent := none }).2) := by
  have hbusy : c.dev.busy = true := h.coherent.busy_iff_event.mpr (by rw [he]; rfl)
  have hbal := h.balance
  have hn : (onComplete p { c.dev with curTick := tick, completeEvent := none }).2 =
      .completed (totalBytes c.dev) := rfl
  generalize hd : onComplete p { c.dev with curTick := tick, completeEvent := none } = r at hn ⊢
  have hc : Coherent r.1 := by rw [← hd]; exact coherent_onComplete rfl
  have hb : r.1.busy = false := by rw [← hd]; exact (onComplete_fields p _).1
  refine ⟨by rw [Counted.note_dev]; exact hc, ?_⟩
  rw [hn]
  simp only [Counted.note, pending, hb, hbusy, if_true, Bool.false_eq_true, if_false] at hbal ⊢
  omega

/-- Every action keeps the job state coherent and the counts in balance. -/
theorem Balanced.step {c c' : Counted} {a : Action} (h : Balanced c)
    (hs : step p c a = some c') : Balanced c' := by
  obtain ⟨d, n, ha, rfl⟩ := step_cases hs
  -- all actions but the completion first move the clock, which nothing here depends on
  have hclock : ∀ {tick : ℕ} {d1 : Dev}, advance c.dev tick = some d1 →
      Coherent d1 ∧ d1.busy = c.dev.busy := by
    intro tick d1 hadv
    exact ⟨h.coherent.advance hadv, by rw [advance_eq hadv]⟩
  cases apply_sound ha with
  | read clock =>
    obtain ⟨hc, hb⟩ := hclock clock
    exact h.quiet hc hb rfl
  | registers clock =>
    obtain ⟨hc, hb⟩ := hclock clock
    exact h.quiet (hc.congr rfl rfl rfl) hb rfl
  | submit clock cmd run =>
    obtain ⟨hc, hb⟩ := hclock clock
    exact h.submitted hc hb run
  | reset clock cmd =>
    obtain ⟨hc, hb⟩ := hclock clock
    exact h.reset hc hb
  | completion event => exact h.completed event
  | drainRequest clock =>
    obtain ⟨hc, hb⟩ := hclock clock
    exact h.quiet (hc.congr rfl rfl rfl) hb rfl
  | drainResume clock =>
    obtain ⟨hc, hb⟩ := hclock clock
    exact h.quiet (hc.congr rfl rfl rfl) hb rfl
  | resetStats clock =>
    obtain ⟨hc, hb⟩ := hclock clock
    exact h.quiet (hc.congr rfl rfl rfl) hb rfl

theorem balanced_run {as : List Action} {c : Counted}
    (h : exec (step p) Counted.init as = some c) : Balanced c :=
  exec_invariant (fun _ _ _ hi hs => hi.step hs) balanced_init h

/-! ### The event is never scheduled twice -/

theorem submit_not_twice (h : Coherent d) : submit p d ≠ .error .scheduledTwice := by
  intro hs
  rw [submit_eq] at hs
  split at hs
  · cases hs
  next hb =>
  split at hs
  · cases hs
  split at hs
  · next he =>
    rw [h.idle (Bool.eq_false_iff.mpr hb)] at he
    cases he
  split at hs <;> cases hs

theorem write_not_twice (h : Coherent d) (off : ℕ) (w : Width) (data : ℕ) :
    write p d off w data ≠ .error .scheduledTwice := by
  intro hw
  rw [write_eq] at hw
  split at hw
  · exact submit_not_twice h hw
  split at hw <;> cases hw

theorem apply_not_twice (h : Coherent d) (a : Action) :
    apply p d a ≠ some (.error .scheduledTwice) := by
  intro ha
  cases a with
  | mmioWrite tick off w data =>
    simp only [apply, Option.map_eq_some_iff] at ha
    obtain ⟨d1, hadv, hw⟩ := ha
    exact write_not_twice (h.advance hadv) off w data hw
  | completion =>
    simp only [apply] at ha
    split at ha <;> simp at ha
  | mmioRead tick off w => simp [apply] at ha
  | drainRequest tick => simp [apply] at ha
  | drainResume tick => simp [apply] at ha
  | resetStats tick => simp [apply] at ha

/-- In every reachable state `busy`, the pending event and `STATUS = BUSY` say
the same, the event is not scheduled a second time whatever happens next, and
each accepted job is completed, cancelled or still running. -/
theorem device_coherent_in_every_run (p : Params) (as : List Action) (c : Counted)
    (h : exec (step p) Counted.init as = some c) :
    (c.dev.busy = true ↔ c.dev.completeEvent.isSome = true) ∧
    (c.dev.busy = true ↔ c.dev.statusReg = statusBusy) ∧
    (c.dev.statusReg = 0 ∨ c.dev.statusReg = statusBusy ∨ c.dev.statusReg = statusDone ∨
      c.dev.statusReg = statusError) ∧
    (∀ a, apply p c.dev a ≠ some (.error .scheduledTwice)) ∧
    c.accepted = c.completed + c.cancelled + (if c.dev.busy then 1 else 0) := by
  have hbal := balanced_run h
  exact ⟨hbal.coherent.busy_iff_event, hbal.coherent.busy_iff_status, hbal.coherent.status_range,
    apply_not_twice hbal.coherent, hbal.balance⟩

-- a 4 KiB job submitted at tick 7
def submittedAt7 : Counted where
  dev := { Dev.init with
    srcBytesReg := 2048
    dstBytesReg := 2048
    statusReg := statusBusy
    busy := true
    completeEvent := some 651559
    curTick := 7 }
  accepted := 1
  completed := 0
  cancelled := 0

theorem device_coherent_in_every_run_submit :
    (submittedAt7.dev.busy = true ↔ submittedAt7.dev.statusReg = statusBusy) ∧
    submittedAt7.accepted = submittedAt7.completed + submittedAt7.cancelled + 1 := by
  have h := device_coherent_in_every_run .exact
    [.mmioWrite 0 offCmd .w4 cmdReset, .mmioWrite 3 offSrcBytes .w8 2048,
      .mmioWrite 5 offDstBytes .w8 2048, .mmioWrite 7 offCmd .w4 cmdSubmit] submittedAt7
    (by decide +kernel)
  exact ⟨h.2.1, h.2.2.2.2⟩

end PnmCompaction.Device
