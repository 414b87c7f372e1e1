import PnmCompaction.System.Doorbell

/-!
# What a `CMD_SUBMIT` finds, and who wakes a poller

Any number of `Schedule` calls ring the doorbell side by side, and each process
may or may not have `/dev/pnm` mapped. `mmio_mutex_` keeps the four writes of one
call together, so the submit finds what its own call wrote. The poll loop of the
worker has no timeout; a poller is stuck unless some submit is still to come or
has left its mark on the device.
-/

namespace PnmCompaction.System.Submission

open PnmCompaction.Lib
open PnmCompaction.Lib.Exec
open PnmCompaction.Device hiding Action step
open PnmCompaction.System.Doorbell

variable {p : Params} {c : Setup} {s t : State}

/-! ### The doorbell under `mmio_mutex_` -/

def Critical (stage : SchedStage) : Prop :=
  stage = .locked ∨ stage = .resetDone ∨ stage = .srcDone ∨ stage = .dstDone

instance (stage : SchedStage) : Decidable (Critical stage) :=
  inferInstanceAs (Decidable (_ ∨ _ ∨ _ ∨ _))

/-- What a `Schedule` call has left in the device so far. -/
def Filled (d : Dev) (bytes : ℕ) : SchedStage → Prop
  | .resetDone => d.busy = false
  | .srcDone => d.busy = false ∧ d.srcBytesReg = bytes % 2 ^ 64
  | .dstDone =>
    d.busy = false ∧ d.srcBytesReg = bytes % 2 ^ 64 ∧ d.dstBytesReg = bytes % 2 ^ 64
  | _ => True

structure Exclusive (s : State) : Prop where
  holder : ∀ (i : ℕ) (job : Job), s.jobs[i]? = some job → Critical job.sched → s.mmioLock = some i
  filled : ∀ (i : ℕ) (job : Job), s.jobs[i]? = some job → Filled s.dev job.bytes job.sched

theorem exclusive_init : Exclusive init := by
  constructor <;> simp [init]

theorem filled_of_not_critical {d : Dev} {bytes : ℕ} {stage : SchedStage}
    (h : ¬ Critical stage) : Filled d bytes stage := by
  cases stage with
  | resetDone => exact absurd (.inr (.inl rfl)) h
  | srcDone => exact absurd (.inr (.inr (.inl rfl))) h
  | dstDone => exact absurd (.inr (.inr (.inr rfl))) h
  | sent | locked | returned | waited => trivial

theorem Filled.congr {d d' : Dev} {bytes : ℕ} {stage : SchedStage} (h : Filled d bytes stage)
    (hb : d'.busy = d.busy) (hs : d'.srcBytesReg = d.srcBytesReg)
    (hd : d'.dstBytesReg = d.dstBytesReg) : Filled d' bytes stage := by
  cases stage with
  | resetDone => exact hb.trans h
  | srcDone => exact ⟨hb.trans h.1, hs.trans h.2⟩
  | dstDone => exact ⟨hb.trans h.1, hs.trans h.2.1, hd.trans h.2.2⟩
  | sent | locked | returned | waited => trivial

-- a step of the worker: no `Schedule` call moves and the registers stay
theorem Exclusive.keep (h : Exclusive s) (hl : t.mmioLock = s.mmioLock)
    (hb : t.dev.busy = s.dev.busy) (hs : t.dev.srcBytesReg = s.dev.srcBytesReg)
    (hd : t.dev.dstBytesReg = s.dev.dstBytesReg)
    (hj : ∀ (i : ℕ) (job : Job), t.jobs[i]? = some job →
      ∃ old, s.jobs[i]? = some old ∧ job.sched = old.sched ∧ job.bytes = old.bytes) :
    Exclusive t := by
  constructor
  · intro i job hget hcrit
    obtain ⟨old, hold, hsched, -⟩ := hj i job hget
    rw [hl]
    exact h.holder i old hold (hsched ▸ hcrit)
  · intro i job hget
    obtain ⟨old, hold, hsched, hbytes⟩ := hj i job hget
    rw [hsched, hbytes]
    exact (h.filled i old hold).congr hb hs hd

theorem Exclusive.worked (h : Exclusive s) {j : ℕ} {stage : WorkStage}
    (hjobs : t.jobs = (s.setWork j stage).jobs) (hl : t.mmioLock = s.mmioLock)
    (hd : t.dev = s.dev) : Exclusive t := by
  refine h.keep hl (by rw [hd]) (by rw [hd]) (by rw [hd]) fun i job hget => ?_
  rw [hjobs] at hget
  obtain ⟨old, hold, hsched, hbytes, -⟩ := setWork_cases hget
  exact ⟨old, hold, hsched, hbytes⟩

-- a `Schedule` call that moves on without the lock
theorem Exclusive.passed (h : Exclusive s) {j : ℕ} {stage : SchedStage}
    (hout : ¬ Critical stage) : Exclusive (s.setSched j stage) := by
  constructor
  · intro i job hget hcrit
    rcases Table.modify_cases hget with ⟨-, hold⟩ | ⟨-, old, -, rfl⟩
    · exact h.holder i job hold hcrit
    · exact absurd hcrit hout
  · intro i job hget
    rcases Table.modify_cases hget with ⟨-, hold⟩ | ⟨-, old, -, rfl⟩
    · exact h.filled i job hold
    · exact filled_of_not_critical hout

-- the call that takes, holds or gives back the lock, while no other is inside
theorem exclusive_sole {j : ℕ} {job : Job} {stage : SchedStage} (get : s.jobs[j]? = some job)
    (halone : ∀ (i : ℕ) (job : Job), i ≠ j → s.jobs[i]? = some job → ¬ Critical job.sched)
    (hjobs : t.jobs = (s.setSched j stage).jobs) (hl : Critical stage → t.mmioLock = some j)
    (hf : Filled t.dev job.bytes stage) : Exclusive t := by
  constructor
  · intro i job' hget hcrit
    rw [hjobs] at hget
    rcases Table.modify_cases hget with ⟨hne, hold⟩ | ⟨rfl, old, -, rfl⟩
    · exact absurd hcrit (halone i job' hne hold)
    · exact hl hcrit
  · intro i job' hget
    rw [hjobs] at hget
    rcases Table.modify_cases hget with ⟨hne, hold⟩ | ⟨rfl, old, hold, rfl⟩
    · exact filled_of_not_critical (halone i job' hne hold)
    · obtain rfl := Option.some.inj (hold.symm.trans get)
      exact hf

theorem Exclusive.alone (h : Exclusive s) {j : ℕ} {job : Job} (get : s.jobs[j]? = some job)
    (hcrit : Critical job.sched) (i : ℕ) (other : Job) (hne : i ≠ j)
    (hget : s.jobs[i]? = some other) : ¬ Critical other.sched := by
  intro hother
  have hj := h.holder j job get hcrit
  have hi := h.holder i other hget hother
  exact hne (Option.some.inj (hi.symm.trans hj))

theorem critical_of_nextWrite {bytes : ℕ} {stage : SchedStage} {w : RegisterWrite}
    (next : nextWrite bytes stage = some w) : Critical stage := by
  cases stage with
  | locked => exact .inl rfl
  | resetDone => exact .inr (.inl rfl)
  | srcDone => exact .inr (.inr (.inl rfl))
  | dstDone => exact .inr (.inr (.inr rfl))
  | sent | returned | waited => cases next

theorem Exclusive.wrote (h : Exclusive s) {j tick : ℕ} {job : Job} {w : RegisterWrite} {d : Dev}
    {n : Note} (get : s.jobs[j]? = some job) (next : nextWrite job.bytes job.sched = some w)
    (answer : apply p s.dev (.mmioWrite tick w.off w.width w.data) = some (.ok (d, n))) :
    Exclusive (afterWrite s j w d n) := by
  have hcrit := critical_of_nextWrite next
  have hfilled := h.filled j job get
  refine exclusive_sole get (h.alone get hcrit) (afterWrite_jobs s j w d n) (fun hin => ?_) ?_
  · rw [afterWrite_lock, if_neg]
    · exact h.holder j job get hcrit
    · intro hret
      rw [hret] at hin
      exact absurd hin (by decide)
  · rw [(afterWrite_eq s j w d n).1]
    obtain ⟨d1, hadv, hcases⟩ := write_spec next answer
    obtain rfl := advance_eq hadv
    rcases hcases with ⟨-, hnext, heq⟩ | ⟨hst, hnext, heq⟩ | ⟨hst, hnext, heq⟩ | ⟨-, hnext, -⟩
    · rw [hnext, (Prod.mk.inj heq).1]
      rfl
    · rw [hst] at hfilled
      rw [hnext, (Prod.mk.inj heq).1]
      exact ⟨hfilled, rfl⟩
    · rw [hst] at hfilled
      rw [hnext, (Prod.mk.inj heq).1]
      exact ⟨hfilled.1, hfilled.2, rfl⟩
    · rw [hnext]
      trivial

theorem Exclusive.completed (h : Exclusive s) (hc : Coherent s.dev) {d : Dev} {n : Note}
    (answer : apply p s.dev .completion = some (.ok (d, n))) :
    Exclusive (s.observe d n none) := by
  obtain ⟨tick, he, heq⟩ := completion_spec answer
  have hbusy : s.dev.busy = true := hc.busy_iff_event.mpr (by rw [he]; rfl)
  have hnote : n = .completed (totalBytes s.dev) := congrArg Prod.snd heq
  constructor
  · intro i job hget hcrit
    rw [observe_jobs] at hget
    have hlock := h.holder i job hget hcrit
    rw [hnote]
    exact hlock
  · -- no call is past its reset while a job is running
    intro i job hget
    rw [observe_jobs] at hget
    have hfilled := h.filled i job hget
    cases hst : job.sched with
    | resetDone =>
      rw [hst] at hfilled
      exact absurd (hfilled.symm.trans hbusy) Bool.false_ne_true
    | srcDone =>
      rw [hst] at hfilled
      exact absurd (hfilled.1.symm.trans hbusy) Bool.false_ne_true
    | dstDone =>
      rw [hst] at hfilled
      exact absurd (hfilled.1.symm.trans hbusy) Bool.false_ne_true
    | sent | locked | returned | waited => trivial

theorem Exclusive.advanced (h : Exclusive s) {tick : ℕ} {d : Dev}
    (hadv : advance s.dev tick = some d) : Exclusive { s with dev := d } := by
  rw [advance_eq hadv]
  exact h.keep rfl rfl rfl rfl fun i job hget => ⟨job, hget, rfl, rfl⟩

theorem Exclusive.step {a : Action} (h : Exclusive s) (hc : Coherent s.dev)
    (hs : step p c s a = some t) : Exclusive t := by
  cases step_sound p c hs with
  | schedule free =>
    constructor
    · intro i job hget hcrit
      rcases Table.concat_cases hget with hold | ⟨-, rfl⟩
      · exact h.holder i job hold hcrit
      · exact absurd hcrit (by decide : ¬ Critical .sent)
    · intro i job hget
      rcases Table.concat_cases hget with hold | ⟨-, rfl⟩
      · exact h.filled i job hold
      · trivial
  | lockMmio get stage free mapped =>
    refine exclusive_sole get (fun i job _ hget hcrit => ?_) rfl (fun _ => rfl) trivial
    cases free.symm.trans (h.holder i job hget hcrit)
  | write get next answer => exact h.wrote get next answer
  | skipMmio get stage unmapped => exact h.passed (by decide)
  | wait get stage answered => exact h.passed (by decide)
  | receive get stage => exact h.worked rfl rfl rfl
  | lockCompact get stage free => exact h.worked rfl rfl rfl
  | compactOk get stage => exact h.worked rfl rfl rfl
  | compactFailed get stage => exact h.worked rfl rfl rfl
  | fallback get stage => exact h.worked rfl rfl rfl
  | pollMiss get stage clock misses => exact h.advanced clock
  | pollHit get stage clock hits => exact (h.advanced clock).worked rfl rfl rfl
  | reply get stage => exact h.worked rfl rfl rfl
  | completion answer => exact h.completed hc answer

theorem exclusive_run {as : List Action} (hr : exec (step p c) init as = some s) :
    Exclusive s := by
  have hboth : Coherent s.dev ∧ Exclusive s :=
    exec_invariant (I := fun s => Coherent s.dev ∧ Exclusive s)
      (fun s a t hi hs => ⟨coherent_step hi.1 hs, hi.2.step hi.1 hs⟩)
      ⟨coherent_init, exclusive_init⟩ hr
  exact hboth.2

theorem submit_is_last_write {bytes : ℕ} {stage : SchedStage} {w : RegisterWrite}
    (next : nextWrite bytes stage = some w) (cmd : isCommand cmdSubmit w.off w.width w.data) :
    stage = .dstDone ∧ w = ⟨offCmd, .w4, cmdSubmit, .returned⟩ := by
  cases stage with
  | locked =>
    obtain rfl := Option.some.inj next
    exact absurd cmd (by decide)
  | resetDone =>
    obtain rfl := Option.some.inj next
    cases cmd.1
  | srcDone =>
    obtain rfl := Option.some.inj next
    cases cmd.1
  | dstDone => exact ⟨rfl, (Option.some.inj next).symm⟩
  | sent | returned | waited => cases next

/-- In every run, with any number of `Schedule` calls at once, each `CMD_SUBMIT`
finds an idle device with the byte total of its own call in both registers, and
is accepted, or rejected because that total is too large. -/
theorem submit_finds_own_total (p : Params) (c : Setup) (as : List Action) (s : State)
    (hr : exec (step p c) init as = some s) (j : ℕ) (job : Job) (w : RegisterWrite)
    (get : s.jobs[j]? = some job) (next : nextWrite job.bytes job.sched = some w)
    (cmd : isCommand cmdSubmit w.off w.width w.data) :
    s.dev.busy = false ∧ s.dev.srcBytesReg = job.bytes % 2 ^ 64 ∧
    s.dev.dstBytesReg = job.bytes % 2 ^ 64 ∧
    ∀ tick d n, apply p s.dev (.mmioWrite tick w.off w.width w.data) = some (.ok (d, n)) →
      (n = .accepted ((job.bytes % 2 ^ 64 + job.bytes % 2 ^ 64) % 2 ^ 64) ∧
        job.bytes % 2 ^ 64 ≤ maxJobBytes) ∨
      (n = .rejected ∧ maxJobBytes < job.bytes % 2 ^ 64) := by
  obtain ⟨hstage, rfl⟩ := submit_is_last_write next cmd
  have hfilled := (exclusive_run hr).filled j job get
  rw [hstage] at hfilled
  obtain ⟨hb, hsrc, hdst⟩ := hfilled
  refine ⟨hb, hsrc, hdst, fun tick d n answer => ?_⟩
  simp only [apply, Option.map_eq_some_iff, write_cmdSubmit] at answer
  obtain ⟨d1, hadv, hsub⟩ := answer
  obtain rfl := advance_eq hadv
  rcases submit_cases hsub with ⟨hbusy, -⟩ | ⟨-, hmax, -, rfl⟩ | ⟨-, hmax, -, t, -, -, -, rfl⟩
  · exact absurd (hb.symm.trans hbusy) Bool.false_ne_true
  · exact .inr ⟨rfl, hsrc ▸ hmax⟩
  · refine .inl ⟨?_, hsrc ▸ hmax⟩
    simp only [totalBytes, hsrc, hdst]

-- two calls at once; the second one's doorbell starts while the first job runs
def twoDoorbells : List Action :=
  [.schedule 100, .schedule 200, .lockMmio 0, .write 0 1, .write 0 2, .write 0 3, .write 0 4,
    .lockMmio 1, .write 1 5, .write 1 6, .write 1 7]

def bothMapped : Setup := ⟨true, true, false⟩

def secondFilled : State := (exec (step .exact bothMapped) init twoDoorbells).getD init

theorem submit_finds_own_total_second :
    secondFilled.dev.busy = false ∧ secondFilled.dev.srcBytesReg = 200 ∧
    secondFilled.dev.dstBytesReg = 200 := by
  have h := submit_finds_own_total .exact bothMapped twoDoorbells secondFilled (by decide +kernel) 1
    ⟨200, .dstDone, .inSocket⟩ ⟨offCmd, .w4, cmdSubmit, .returned⟩ (by decide +kernel) rfl
    ⟨rfl, rfl⟩
  exact ⟨h.1, h.2.1, h.2.2.1⟩

/-! ### Who wakes a poller -/

def BeforeSubmit (stage : SchedStage) : Prop := stage = .sent ∨ Critical stage

instance (stage : SchedStage) : Decidable (BeforeSubmit stage) :=
  inferInstanceAs (Decidable (_ ∨ _))

/-- A `Schedule` call has sent its request and will still write `CMD_SUBMIT`. -/
def SubmitAhead (c : Setup) (s : State) : Prop :=
  c.serviceMapped = true ∧ ∃ (i : ℕ) (job : Job), s.jobs[i]? = some job ∧ BeforeSubmit job.sched

def WakeUp (c : Setup) (s : State) : Prop :=
  pollEnds s.dev.statusReg = true ∨ s.dev.completeEvent.isSome = true ∨ SubmitAhead c s

def NoStuckPoller (p : Params) (c : Setup) : Prop :=
  ∀ (as : List Action) (s : State), exec (step p c) init as = some s →
    ∀ (j : ℕ) (job : Job), s.jobs[j]? = some job → job.work = .polling → WakeUp c s

/-- Once there is a job, a submit is ahead or has left its mark in `STATUS`. -/
def Marked (s : State) : Prop :=
  s.jobs = [] ∨ s.dev.statusReg ≠ 0 ∨
    ∃ (i : ℕ) (job : Job), s.jobs[i]? = some job ∧ BeforeSubmit job.sched

theorem marked_of_stage {j : ℕ} {job : Job} {stage : SchedStage} (get : s.jobs[j]? = some job)
    (hjobs : t.jobs = (s.setSched j stage).jobs) (hb : BeforeSubmit stage) : Marked t := by
  refine .inr (.inr ⟨j, { job with sched := stage }, ?_, hb⟩)
  rw [hjobs, getElem?_setSched, if_pos rfl, get]
  rfl

theorem Marked.worked (h : Marked s) {j : ℕ} {old : Job} {stage : WorkStage}
    (get : s.jobs[j]? = some old) (hjobs : t.jobs = (s.setWork j stage).jobs)
    (hd : t.dev.statusReg = s.dev.statusReg) : Marked t := by
  rcases h with hnil | hst | ⟨i, job, hget, hb⟩
  · rw [hnil] at get
    cases get
  · exact .inr (.inl (hd ▸ hst))
  · rcases eq_or_ne j i with rfl | hne
    · refine .inr (.inr ⟨j, { job with work := stage }, ?_, hb⟩)
      rw [hjobs, getElem?_setWork, if_pos rfl, hget]
      rfl
    · refine .inr (.inr ⟨i, job, ?_, hb⟩)
      rw [hjobs, getElem?_setWork, if_neg hne]
      exact hget

-- a call that is already past its submit moves on
theorem Marked.passed (h : Marked s) {j : ℕ} {job : Job} {stage : SchedStage}
    (get : s.jobs[j]? = some job) (hover : ¬ BeforeSubmit job.sched) :
    Marked (s.setSched j stage) := by
  rcases h with hnil | hst | ⟨i, job', hget, hb⟩
  · rw [hnil] at get
    cases get
  · exact .inr (.inl hst)
  · refine .inr (.inr ⟨i, job', ?_, hb⟩)
    rw [getElem?_setSched, if_neg]
    · exact hget
    · rintro rfl
      obtain rfl := Option.some.inj (hget.symm.trans get)
      exact hover hb

theorem submit_marks {d d' : Dev} {n : Note} (hc : Coherent d) (hs : submit p d = .ok (d', n)) :
    d'.statusReg ≠ 0 := by
  rcases submit_cases hs with ⟨hb, rfl, -⟩ | ⟨-, -, rfl, -⟩ | ⟨-, -, -, t, -, -, rfl, -⟩
  · rw [hc.busy_iff_status.mp hb]
    decide
  · exact (by decide : statusError ≠ 0)
  · exact (by decide : statusBusy ≠ 0)

theorem marked_wrote (hc : Coherent s.dev) {j tick : ℕ} {job : Job} {w : RegisterWrite} {d : Dev}
    {n : Note} (get : s.jobs[j]? = some job) (next : nextWrite job.bytes job.sched = some w)
    (answer : apply p s.dev (.mmioWrite tick w.off w.width w.data) = some (.ok (d, n))) :
    Marked (afterWrite s j w d n) := by
  obtain ⟨d1, hadv, hcases⟩ := write_spec next answer
  have hjobs := afterWrite_jobs s j w d n
  rcases hcases with ⟨-, hnext, -⟩ | ⟨-, hnext, -⟩ | ⟨-, hnext, -⟩ | ⟨-, -, hsub⟩
  · exact marked_of_stage get hjobs (by rw [hnext]; decide)
  · exact marked_of_stage get hjobs (by rw [hnext]; decide)
  · exact marked_of_stage get hjobs (by rw [hnext]; decide)
  · have hc1 : Coherent d1 := hc.advance hadv
    refine .inr (.inl ?_)
    rw [(afterWrite_eq s j w d n).1]
    exact submit_marks hc1 hsub

theorem Marked.step {a : Action} (h : Marked s) (hc : Coherent s.dev)
    (mapped : c.serviceMapped = true) (hs : step p c s a = some t) : Marked t := by
  cases step_sound p c hs with
  | @schedule bytes free =>
    exact .inr (.inr ⟨s.jobs.length, ⟨bytes, .sent, .inSocket⟩, List.getElem?_concat_length,
      .inl rfl⟩)
  | lockMmio get stage free mapped => exact marked_of_stage get rfl (by decide)
  | write get next answer => exact marked_wrote hc get next answer
  | skipMmio get stage unmapped => exact absurd (unmapped.symm.trans mapped) Bool.false_ne_true
  | wait get stage answered => exact h.passed get (by rw [stage]; decide)
  | receive get stage => exact h.worked get rfl rfl
  | lockCompact get stage free => exact h.worked get rfl rfl
  | compactOk get stage => exact h.worked get rfl rfl
  | compactFailed get stage => exact h.worked get rfl rfl
  | fallback get stage => exact h.worked get rfl rfl
  | pollMiss get stage clock misses =>
    rw [advance_eq clock]
    exact h
  | pollHit get stage clock hits =>
    rw [advance_eq clock]
    exact h.worked get rfl rfl
  | reply get stage => exact h.worked get rfl rfl
  | @completion d n answer =>
    obtain ⟨tick, -, heq⟩ := completion_spec answer
    have hd : d = (onComplete p { s.dev with curTick := tick, completeEvent := none }).1 :=
      congrArg Prod.fst heq
    refine .inr (.inl ?_)
    rw [observe_dev, hd, (onComplete_fields p _).2.2]
    decide

theorem marked_run {as : List Action} (mapped : c.serviceMapped = true)
    (hr : exec (step p c) init as = some s) : Coherent s.dev ∧ Marked s :=
  exec_invariant (I := fun s => Coherent s.dev ∧ Marked s)
    (fun _ _ _ hi hs => ⟨coherent_step hi.1 hs, hi.2.step hi.1 mapped hs⟩)
    ⟨coherent_init, .inl rfl⟩ hr

theorem wakeUp_of_marked {j : ℕ} {job : Job} (mapped : c.serviceMapped = true)
    (hc : Coherent s.dev) (h : Marked s) (get : s.jobs[j]? = some job) : WakeUp c s := by
  rcases h with hnil | hst | hahead
  · rw [hnil] at get
    cases get
  · rcases hc.status_range with h | h | h | h
    · exact absurd h hst
    · exact .inr (.inl (hc.busy_iff_event.mp (hc.busy_iff_status.mpr h)))
    · exact .inl (by rw [h]; decide)
    · exact .inl (by rw [h]; decide)
  · exact .inr (.inr ⟨mapped, hahead⟩)

/-- Only a worker with a mapping of its own enters the loop. -/
def PollsMapped (c : Setup) (s : State) : Prop :=
  ∀ (j : ℕ) (job : Job), s.jobs[j]? = some job → job.work = .polling → c.workerMapped = true

theorem PollsMapped.moved (h : PollsMapped c s) {j : ℕ} {stage : SchedStage}
    (hjobs : t.jobs = (s.setSched j stage).jobs) : PollsMapped c t := by
  intro i job hget hpoll
  rw [hjobs] at hget
  rcases Table.modify_cases hget with ⟨-, hold⟩ | ⟨-, old, hold, rfl⟩
  · exact h i job hold hpoll
  · exact h j old hold hpoll

theorem PollsMapped.worked (h : PollsMapped c s) {j : ℕ} {stage : WorkStage}
    (hjobs : t.jobs = (s.setWork j stage).jobs)
    (hst : stage = .polling → c.workerMapped = true) : PollsMapped c t := by
  intro i job hget hpoll
  rw [hjobs] at hget
  obtain ⟨old, hold, -, -, hwork | hwork⟩ := setWork_cases hget
  · exact h i old hold (hwork.symm.trans hpoll)
  · exact hst (hwork.symm.trans hpoll)

theorem PollsMapped.step {a : Action} (h : PollsMapped c s) (hs : step p c s a = some t) :
    PollsMapped c t := by
  cases step_sound p c hs with
  | schedule free =>
    intro i job hget hpoll
    rcases Table.concat_cases hget with hold | ⟨-, rfl⟩
    · exact h i job hold hpoll
    · cases hpoll
  | lockMmio get stage free mapped => exact h.moved rfl
  | @write j tick job w d n get next answer => exact h.moved (afterWrite_jobs s j w d n)
  | skipMmio get stage unmapped => exact h.moved rfl
  | wait get stage answered => exact h.moved rfl
  | receive get stage => exact h.worked rfl (by simp)
  | lockCompact get stage free => exact h.worked rfl (by simp)
  | compactOk get stage =>
    refine h.worked rfl fun hpoll => ?_
    split at hpoll
    · next hw => exact hw
    · cases hpoll
  | compactFailed get stage => exact h.worked rfl (by simp)
  | fallback get stage => exact h.worked rfl (by simp)
  | pollMiss get stage clock misses => exact h
  | pollHit get stage clock hits => exact h.worked rfl (by simp)
  | reply get stage => exact h.worked rfl (by simp)
  | completion answer =>
    intro i job hget hpoll
    rw [observe_jobs] at hget
    exact h i job hget hpoll

theorem pollsMapped_run {as : List Action} (hr : exec (step p c) init as = some s) :
    PollsMapped c s := by
  refine exec_invariant (fun _ _ _ hi hs => hi.step hs) (fun j job hget _ => ?_) hr
  cases hget

-- only the worker has the mapping: it polls a device that nobody submits to
def stuckRun : List Action :=
  [.schedule 100, .skipMmio 0, .receive 0, .lockCompact 0, .compact 0 true]

def stuckState : State where
  dev := Dev.init
  jobs := [⟨100, .returned, .polling⟩]
  mmioLock := none
  compactLock := some 0
  owner := none
  raised := []

theorem exec_stuckRun (p : Params) (sequential : Bool) :
    exec (step p ⟨false, true, sequential⟩) init stuckRun = some stuckState := by
  cases sequential <;> rfl

theorem stuckState_not_wakeUp (c : Setup) (unmapped : c.serviceMapped = false) :
    ¬ WakeUp c stuckState := by
  rintro (hends | hevent | ⟨mapped, -⟩)
  · exact absurd hends (by decide)
  · cases hevent
  · exact absurd (unmapped.symm.trans mapped) Bool.false_ne_true

/-- No run leaves a poller without a wake-up exactly when a worker that polls has
a database process that submits. -/
theorem noStuckPoller_iff (p : Params) (c : Setup) :
    NoStuckPoller p c ↔ (c.workerMapped = true → c.serviceMapped = true) := by
  constructor
  · intro h hworker
    by_contra hservice
    have hunmapped : c.serviceMapped = false := Bool.eq_false_iff.mpr hservice
    obtain ⟨serviceMapped, workerMapped, sequential⟩ := c
    obtain rfl : serviceMapped = false := hunmapped
    obtain rfl : workerMapped = true := hworker
    have hwake := h stuckRun stuckState (exec_stuckRun p sequential) 0 ⟨100, .returned, .polling⟩
      rfl rfl
    exact stuckState_not_wakeUp _ rfl hwake
  · intro h as s hr j job hget hpoll
    have mapped := h (pollsMapped_run hr j job hget hpoll)
    obtain ⟨hc, hmarked⟩ := marked_run mapped hr
    exact wakeUp_of_marked mapped hc hmarked hget

/-- The worker's thread holds `g_compact_mutex`, `STATUS` is 0 and nothing is
pending; the only job's `Schedule` has returned without a submit. -/
theorem unmapped_service_leaves_poller_stuck :
    (exec (step .exact ⟨false, true, false⟩) init stuckRun).map
        (fun s => (s.jobs, s.compactLock, s.dev.statusReg, s.dev.completeEvent)) =
      some ([⟨100, .returned, .polling⟩], some 0, 0, none) := by
  decide +kernel

end PnmCompaction.System.Submission
