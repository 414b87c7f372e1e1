import PnmCompaction.Device.Invariant

/-!
# What a completed job adds to `bytesProcessed`

The latency of a job is computed from the registers when it is submitted
(pnm_compactor.cc:148-166); `onComplete` reads them again for the statistics
(pnm_compactor.cc:191-194). `job` and `booked` record, outside the program, what
the running job was submitted with and what each completed job was booked with.
-/

namespace PnmCompaction.Device.Accounting

open PnmCompaction.Lib.Exec

variable {p : Params}

structure Job where
  submitTick : ℕ
  total : ℕ
  deriving DecidableEq, Repr

structure Entry where
  job : Option Job
  completeTick : ℕ
  /-- The operand of `stats.bytesProcessed += total`. -/
  added : ℕ
  before : ℚ
  after : ℚ
  deriving DecidableEq, Repr

structure State where
  dev : Dev
  job : Option Job
  booked : List Entry
  deriving DecidableEq, Repr

def init : State := ⟨Dev.init, none, []⟩

def State.observe (s : State) (d : Dev) : Note → State
  | .accepted total => { s with dev := d, job := some ⟨d.curTick, total⟩ }
  | .cancelled => { s with dev := d, job := none }
  | .completed added =>
    { dev := d
      job := none
      booked := ⟨s.job, d.curTick, added, s.dev.stats.bytesProcessed, d.stats.bytesProcessed⟩ ::
        s.booked }
  | _ => { s with dev := d }

def step (p : Params) (s : State) (a : Action) : Option State :=
  match apply p s.dev a with
  | some (.ok (d, n)) => some (s.observe d n)
  | _ => none

theorem step_cases {s s' : State} {a : Action} (h : step p s a = some s') :
    ∃ d n, apply p s.dev a = some (.ok (d, n)) ∧ s' = s.observe d n := by
  unfold step at h
  split at h
  · next d n ha => exact ⟨d, n, ha, (Option.some.inj h).symm⟩
  · cases h

/-- No write changes the sum of the two registers while a job is running. -/
def KeepsTotal (s : State) : Action → Prop
  | .mmioWrite _ off w data =>
    s.dev.completeEvent.isSome = true →
      totalBytes (setRegisters s.dev off w data) = totalBytes s.dev
  | _ => True

instance (s : State) (a : Action) : Decidable (KeepsTotal s a) := by
  unfold KeepsTotal
  split <;> infer_instance

def finishTick (p : Params) (j : Job) : ℕ := (j.submitTick + totalLatency p j.total) % 2 ^ 64

/-- The entry of a job that was booked with what it was submitted with. -/
def Entry.Right (p : Params) (e : Entry) : Prop :=
  ∃ j, e.job = some j ∧ e.completeTick = finishTick p j ∧ e.added = j.total ∧
    e.after = p.toDouble (e.before + p.toDouble j.total)

structure Tracked (p : Params) (s : State) : Prop where
  event : s.dev.completeEvent = s.job.map (finishTick p)
  total : ∀ j ∈ s.job, totalBytes s.dev = j.total
  booked : ∀ e ∈ s.booked, e.Right p

theorem tracked_init : Tracked p init := by
  refine ⟨rfl, ?_, ?_⟩
  · intro j hj
    cases hj
  · intro e he
    exact absurd he List.not_mem_nil

-- an action that touches neither the job nor its registers
theorem Tracked.same {s : State} {d : Dev} (h : Tracked p s)
    (he : d.completeEvent = s.dev.completeEvent)
    (ht : s.dev.completeEvent.isSome = true → totalBytes d = totalBytes s.dev) :
    Tracked p { s with dev := d } := by
  refine ⟨he.trans h.event, fun j hj => ?_, h.booked⟩
  refine (ht ?_).trans (h.total j hj)
  rw [h.event, Option.mem_def.mp hj]
  rfl

theorem Tracked.idle {s : State} (h : Tracked p s) (he : s.dev.completeEvent = none) :
    s.job = none :=
  Option.map_eq_none_iff.mp (h.event.symm.trans he)

theorem advance_job {d d' : Dev} {tick : ℕ} (h : advance d tick = some d') :
    d'.completeEvent = d.completeEvent ∧ totalBytes d' = totalBytes d := by
  rw [advance_eq h]
  exact ⟨rfl, rfl⟩

theorem Tracked.submitted {s : State} {d d' : Dev} {n : Note} {tick : ℕ} (h : Tracked p s)
    (hadv : advance s.dev tick = some d) (hs : submit p d = .ok (d', n)) :
    Tracked p (s.observe d' n) := by
  obtain ⟨he, ht⟩ := advance_job hadv
  rcases submit_cases hs with ⟨-, rfl, rfl⟩ | ⟨-, -, rfl, rfl⟩ | ⟨-, -, -, t, -, hfin, rfl, rfl⟩
  · exact h.same he fun _ => ht
  · exact h.same he fun _ => ht
  · refine ⟨?_, fun j hj => ?_, h.booked⟩
    · rw [hfin]
      rfl
    · rw [← Option.some.inj (Option.mem_def.mp hj)]
      rfl

theorem Tracked.reset {s : State} {d : Dev} {tick : ℕ} (h : Tracked p s)
    (hadv : advance s.dev tick = some d) : Tracked p (s.observe (reset d).1 (reset d).2) := by
  have hnone : Tracked p { s with dev := (Device.reset d).1, job := none } := by
    refine ⟨rfl, fun j hj => ?_, h.booked⟩
    cases hj
  have hnote : (Device.reset d).2 = if d.completeEvent.isSome then .cancelled else .quiet := rfl
  rw [hnote]
  split
  · exact hnone
  · next he =>
    have hidle : s.dev.completeEvent = none := by
      rw [← (advance_job hadv).1]
      exact Option.not_isSome_iff_eq_none.mp he
    rw [← h.idle hidle] at hnone
    exact hnone

theorem onComplete_stats (p : Params) (d : Dev) :
    (onComplete p d).1.stats.bytesProcessed =
        p.toDouble (d.stats.bytesProcessed + p.toDouble (totalBytes d)) ∧
      (onComplete p d).1.curTick = d.curTick ∧ (onComplete p d).2 = .completed (totalBytes d) := by
  rw [onComplete_fst]
  exact ⟨rfl, rfl, rfl⟩

theorem Tracked.completed {s : State} {tick : ℕ} (h : Tracked p s)
    (he : s.dev.completeEvent = some tick) :
    Tracked p (s.observe (onComplete p { s.dev with curTick := tick, completeEvent := none }).1
      (onComplete p { s.dev with curTick := tick, completeEvent := none }).2) := by
  obtain ⟨j, hj, hfin⟩ := Option.map_eq_some_iff.mp (h.event.symm.trans he)
  have htotal : totalBytes s.dev = j.total := h.total j hj
  obtain ⟨hstats, htick, hnote⟩ :=
    onComplete_stats p { s.dev with curTick := tick, completeEvent := none }
  have hnone := (onComplete_fields p { s.dev with curTick := tick, completeEvent := none }).2.1
  rw [hnote]
  refine ⟨hnone, fun j hj => ?_, fun e hmem => ?_⟩
  · cases hj
  · rcases List.mem_cons.mp hmem with rfl | hold
    · refine ⟨j, hj, htick.trans hfin.symm, htotal, ?_⟩
      rw [← htotal]
      exact hstats
    · exact h.booked e hold

theorem Tracked.step {s s' : State} {a : Action} (h : Tracked p s) (hk : KeepsTotal s a)
    (hs : step p s a = some s') : Tracked p s' := by
  obtain ⟨d, n, ha, rfl⟩ := step_cases hs
  cases apply_sound ha with
  | read clock | drainRequest clock | drainResume clock | resetStats clock =>
    obtain ⟨he, ht⟩ := advance_job clock
    exact h.same he fun _ => ht
  | registers clock =>
    rw [advance_eq clock]
    exact h.same rfl hk
  | submit clock cmd run => exact h.submitted clock run
  | reset clock cmd => exact h.reset clock
  | completion event => exact h.completed event

theorem tracked_run {as : List Action} {s : State} (hm : Meets (step p) KeepsTotal init as)
    (hr : exec (step p) init as = some s) : Tracked p s :=
  exec_invariant_of_meets (fun _ _ _ hi hc hs => hi.step hc hs) tracked_init hm hr

theorem step_completion {s : State} {tick : ℕ} (he : s.dev.completeEvent = some tick) :
    ∃ s' e, step p s .completion = some s' ∧ s'.booked = e :: s.booked ∧ e.job = s.job ∧
      e.completeTick = tick ∧ e.added = totalBytes s.dev := by
  obtain ⟨-, htick, hnote⟩ :=
    onComplete_stats p { s.dev with curTick := tick, completeEvent := none }
  have hstep : step p s .completion =
      some (s.observe (onComplete p { s.dev with curTick := tick, completeEvent := none }).1
        (onComplete p { s.dev with curTick := tick, completeEvent := none }).2) := by
    simp only [step, apply, he]
  rw [hnote] at hstep
  exact ⟨_, _, hstep, rfl, rfl, htick, rfl⟩

/-- A write that changes the sum leaves a job whose completion books another amount. -/
theorem completion_books_other {s s' : State} {a : Action} (h : Tracked p s)
    (hno : ¬ KeepsTotal s a) (hs : step p s a = some s') :
    ∃ j s'' e, s.job = some j ∧ step p s' .completion = some s'' ∧ s''.booked = e :: s'.booked ∧
      e.job = some j ∧ e.completeTick = finishTick p j ∧ e.added ≠ j.total := by
  obtain ⟨d, n, ha, rfl⟩ := step_cases hs
  cases apply_sound ha with
  | read | completion | drainRequest | drainResume | resetStats => exact absurd trivial hno
  | submit clock cmd run =>
    obtain ⟨rfl, -⟩ := cmd
    exact absurd (fun _ => rfl) hno
  | reset clock cmd =>
    obtain ⟨rfl, -⟩ := cmd
    exact absurd (fun _ => rfl) hno
  | @registers tick off w data d1 clock =>
    obtain ⟨hrun, hne⟩ := Classical.not_imp.mp hno
    obtain ⟨t, he⟩ := Option.isSome_iff_exists.mp hrun
    obtain ⟨j, hj, hfin⟩ := Option.map_eq_some_iff.mp (h.event.symm.trans he)
    obtain rfl := advance_eq clock
    obtain ⟨s'', e, hstep, hbooked, hjob, htick, hadded⟩ := step_completion (p := p)
      (s := { s with dev := setRegisters { s.dev with curTick := tick } off w data }) he
    refine ⟨j, s'', e, hj, hstep, hbooked, hjob.trans hj, htick.trans hfin.symm, ?_⟩
    rw [hadded, ← h.total j hj]
    exact hne

/-- In every run in which no write changes `SRC_BYTES + DST_BYTES` while a job is
running, each completed job was booked with the total its latency was computed
from. The first write that does change it leaves a job that, completed next, is
booked with another amount. -/
theorem booked_amount_is_submitted_total (p : Params) (as : List Action) (s : State)
    (hm : Meets (step p) KeepsTotal init as) (hr : exec (step p) init as = some s) :
    (∀ e ∈ s.booked, ∃ j, e.job = some j ∧ e.completeTick = finishTick p j ∧ e.added = j.total ∧
      e.after = p.toDouble (e.before + p.toDouble j.total)) ∧
    (∀ a s', ¬ KeepsTotal s a → step p s a = some s' →
      ∃ j s'' e, s.job = some j ∧ step p s' .completion = some s'' ∧
        s''.booked = e :: s'.booked ∧ e.job = some j ∧ e.completeTick = finishTick p j ∧
        e.added ≠ j.total) := by
  have h := tracked_run hm hr
  exact ⟨h.booked, fun a s' hno hs => completion_books_other h hno hs⟩

-- a 4 KiB job submitted at tick 7; a register is written again with what it holds
def completedRun : List Action :=
  [.mmioWrite 3 offSrcBytes .w8 2048, .mmioWrite 5 offDstBytes .w8 2048,
    .mmioWrite 7 offCmd .w4 cmdSubmit, .mmioRead 9 offStatus .w4,
    .mmioWrite 11 offSrcBytes .w8 2048, .completion]

def completedAt651559 : State where
  dev := { Dev.init with
    srcBytesReg := 2048
    dstBytesReg := 2048
    statusReg := statusDone
    stats := ⟨4096, 1⟩
    curTick := 651559 }
  job := none
  booked := [⟨some ⟨7, 4096⟩, 651559, 4096, 0, 4096⟩]

theorem booked_amount_is_submitted_total_once :
    ∃ e ∈ completedAt651559.booked, ∃ j, e.job = some j ∧ e.added = j.total ∧
      e.after = e.before + j.total := by
  have h := booked_amount_is_submitted_total .exact completedRun completedAt651559
    (by decide +kernel) (by decide +kernel)
  obtain ⟨j, hj, -, hadded, hafter⟩ := h.1 _ List.mem_cons_self
  exact ⟨_, List.mem_cons_self, j, hj, hadded, hafter⟩

/-- `SRC_BYTES` is written between the submission and the completion. -/
theorem rewritten_register_is_booked :
    (exec (step .exact) init
      [.mmioWrite 3 offSrcBytes .w8 2048, .mmioWrite 5 offDstBytes .w8 2048,
        .mmioWrite 7 offCmd .w4 cmdSubmit, .mmioWrite 9 offSrcBytes .w8 1048576,
        .completion]).map (·.booked) =
      some [⟨some ⟨7, 4096⟩, 651559, 1050624, 0, 1050624⟩] := by
  decide +kernel

end PnmCompaction.Device.Accounting
