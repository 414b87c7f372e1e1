import PnmCompaction.System.Doorbell

/-!
# One job at a time: whose completion does the worker see?

With both processes mapped and `Schedule` of a job after `Wait` of the one
before, the worker's poll finds the device in the state its own job left it in,
except between the request frame and that job's `CMD_RESET`: there `STATUS`
still shows the job before. `Fresh` says that no poll falls there on a `DONE` or
`ERROR`.
-/

namespace PnmCompaction.System.Handshake

open PnmCompaction.Lib
open PnmCompaction.Lib.Exec
open PnmCompaction.Device hiding Action step
open PnmCompaction.System.Doorbell

variable {p : Params} {s t : State}

def oneAtATime : Setup := ⟨true, true, true⟩

/-- The job's own `CMD_RESET` has not reached the device. -/
def BeforeReset (stage : SchedStage) : Prop := stage = .sent ∨ stage = .locked

def Fresh (s : State) : Action → Prop
  | .poll j _ => ∀ job, s.jobs[j]? = some job → BeforeReset job.sched →
      pollEnds s.dev.statusReg = false
  | _ => True

instance (stage : SchedStage) : Decidable (BeforeReset stage) :=
  inferInstanceAs (Decidable (_ ∨ _))

instance (s : State) (a : Action) : Decidable (Fresh s a) :=
  match a with
  | .poll j _ =>
    match h : s.jobs[j]? with
    | none => .isTrue (by simp [Fresh, h])
    | some job =>
      decidable_of_iff (BeforeReset job.sched → pollEnds s.dev.statusReg = false)
        (by simp [Fresh, h])
  | .schedule _ | .lockMmio _ | .write _ _ | .skipMmio _ | .wait _ | .receive _
  | .lockCompact _ | .compact _ _ | .fallback _ _ | .reply _ | .completion => .isTrue trivial

/-! ### The invariant -/

/-- What the stage of `Schedule` says of the device. -/
def Agrees (s : State) (i : ℕ) : SchedStage → Prop
  | .resetDone | .srcDone | .dstDone => s.dev.busy = false ∧ s.dev.statusReg = 0
  | .returned => (s.dev.busy = true ∧ s.owner = some i) ∨ i ∈ s.raised
  | _ => True

/-- The three parties are in step. -/
structure InStep (s : State) : Prop where
  coherent : Coherent s.dev
  /-- Only the last job is not over. -/
  last : ∀ (i : ℕ) (job : Job), s.jobs[i]? = some job → job.sched ≠ .waited → i + 1 = s.jobs.length
  answered : ∀ (i : ℕ) (job : Job), s.jobs[i]? = some job → job.sched = .waited →
    ∃ r, job.work = .replied r
  agrees : ∀ (i : ℕ) (job : Job), s.jobs[i]? = some job → Agrees s i job.sched
  raised : ∀ (i : ℕ) (job : Job), s.jobs[i]? = some job →
    job.work = .answering ∨ job.work = .replied .success → i ∈ s.raised

theorem inStep_init : InStep init := by
  constructor
  · exact coherent_init
  all_goals simp [init]

theorem Agrees.mono {i : ℕ} {stage : SchedStage} (h : Agrees s i stage)
    (hb : t.dev.busy = s.dev.busy) (hs : t.dev.statusReg = s.dev.statusReg)
    (ho : t.owner = s.owner) (hr : ∀ k ∈ s.raised, k ∈ t.raised) : Agrees t i stage := by
  cases stage with
  | resetDone => simpa only [Agrees, hb, hs] using h
  | srcDone => simpa only [Agrees, hb, hs] using h
  | dstDone => simpa only [Agrees, hb, hs] using h
  | returned =>
    rcases h with ⟨hbusy, howner⟩ | hmem
    · exact .inl ⟨hb.trans hbusy, ho.trans howner⟩
    · exact .inr (hr i hmem)
  | sent => trivial
  | locked => trivial
  | waited => trivial

theorem InStep.congr (h : InStep s) (hd : t.dev = s.dev) (hj : t.jobs = s.jobs)
    (ho : t.owner = s.owner) (hr : t.raised = s.raised) : InStep t where
  coherent := by rw [hd]; exact h.coherent
  last := by rw [hj]; exact h.last
  answered := by rw [hj]; exact h.answered
  agrees i job hget := by
    rw [hj] at hget
    refine (h.agrees i job hget).mono ?_ ?_ ho ?_
    · rw [hd]
    · rw [hd]
    · intro k hk
      rw [hr]
      exact hk
  raised := by rw [hj, hr]; exact h.raised

/-- The one job that is not over moves to another stage of `Schedule` or `Wait`. -/
theorem InStep.moved (h : InStep s) {j : ℕ} {job : Job} {stage : SchedStage}
    (get : s.jobs[j]? = some job) (hlive : job.sched ≠ .waited)
    (hjobs : t.jobs = (s.setSched j stage).jobs) (hc : Coherent t.dev)
    (hr : ∀ k ∈ s.raised, k ∈ t.raised) (hag : Agrees t j stage)
    (hans : stage = .waited → ∃ r, job.work = .replied r) : InStep t := by
  have hlast := h.last j job get hlive
  have hlen : t.jobs.length = s.jobs.length := by
    rw [hjobs, State.setSched, List.length_modify]
  -- a job of the new state is `j` in its new stage or an old job, which is over
  have hcases : ∀ i job', t.jobs[i]? = some job' →
      (i = j ∧ job' = { job with sched := stage }) ∨
      (s.jobs[i]? = some job' ∧ job'.sched = .waited) := by
    intro i job' hget
    rw [hjobs] at hget
    rcases Table.modify_cases hget with ⟨hne, hold⟩ | ⟨rfl, old, hold, rfl⟩
    · refine .inr ⟨hold, ?_⟩
      by_contra hw
      have hi := h.last i job' hold hw
      omega
    · obtain rfl := Option.some.inj (hold.symm.trans get)
      exact .inl ⟨rfl, rfl⟩
  constructor
  · exact hc
  · intro i job' hget hw
    rcases hcases i job' hget with ⟨rfl, -⟩ | ⟨-, hover⟩
    · rw [hlen]
      exact hlast
    · exact absurd hover hw
  · intro i job' hget hw
    rcases hcases i job' hget with ⟨-, rfl⟩ | ⟨hold, hover⟩
    · exact hans hw
    · exact h.answered i job' hold hover
  · intro i job' hget
    rcases hcases i job' hget with ⟨rfl, rfl⟩ | ⟨-, hover⟩
    · exact hag
    · rw [hover]
      trivial
  · intro i job' hget hwork
    rcases hcases i job' hget with ⟨rfl, rfl⟩ | ⟨hold, -⟩
    · exact hr i (h.raised i job get hwork)
    · exact hr i (h.raised i job' hold hwork)

theorem InStep.worked (h : InStep s) {j : ℕ} {job : Job} (stage : WorkStage)
    (get : s.jobs[j]? = some job) (hlive : ∀ r, job.work ≠ .replied r)
    (hr : stage = .answering ∨ stage = .replied .success → j ∈ s.raised) :
    InStep (s.setWork j stage) := by
  have hcases : ∀ i job', (s.setWork j stage).jobs[i]? = some job' →
      ∃ old, s.jobs[i]? = some old ∧ job'.sched = old.sched ∧
        ((i = j ∧ old = job ∧ job'.work = stage) ∨ job' = old) := by
    intro i job' hget
    rw [getElem?_setWork] at hget
    split at hget
    · next hij =>
      rw [← hij, get] at hget
      have heq := Option.some.inj hget
      exact ⟨job, by rw [← hij]; exact get, by rw [← heq], .inl ⟨hij.symm, rfl, by rw [← heq]⟩⟩
    · exact ⟨job', hget, rfl, .inr rfl⟩
  constructor
  · exact h.coherent
  · intro i job' hget hw
    obtain ⟨old, hold, hsched, -⟩ := hcases i job' hget
    have hlen : (s.setWork j stage).jobs.length = s.jobs.length := by
      rw [State.setWork, List.length_modify]
    rw [hlen]
    rw [hsched] at hw
    exact h.last i old hold hw
  · intro i job' hget hw
    obtain ⟨old, hold, hsched, hcase⟩ := hcases i job' hget
    rw [hsched] at hw
    obtain ⟨r, hrep⟩ := h.answered i old hold hw
    rcases hcase with ⟨-, rfl, -⟩ | rfl
    · exact absurd hrep (hlive r)
    · exact ⟨r, hrep⟩
  · intro i job' hget
    obtain ⟨old, hold, hsched, -⟩ := hcases i job' hget
    rw [hsched]
    exact (h.agrees i old hold).mono rfl rfl rfl fun _ hk => hk
  · intro i job' hget hwork
    obtain ⟨old, hold, -, hcase⟩ := hcases i job' hget
    rcases hcase with ⟨rfl, -, hst⟩ | rfl
    · rw [hst] at hwork
      exact hr hwork
    · exact h.raised i job' hold hwork

theorem observe_raised_mono (d : Dev) (n : Note) (j : Option ℕ) :
    ∀ k ∈ s.raised, k ∈ (s.observe d n j).raised := by
  intro k hk
  cases n with
  | rejected => exact List.mem_append.mpr (.inr hk)
  | completed total => exact List.mem_append.mpr (.inr hk)
  | _ => exact hk

theorem InStep.wrote (h : InStep s) {j tick : ℕ} {job : Job} {w : RegisterWrite} {d : Dev}
    {n : Note} (get : s.jobs[j]? = some job) (next : nextWrite job.bytes job.sched = some w)
    (answer : apply p s.dev (.mmioWrite tick w.off w.width w.data) = some (.ok (d, n))) :
    InStep (afterWrite s j w d n) := by
  obtain ⟨hdev, -, howner, hraised⟩ := afterWrite_eq s j w d n
  have hjobs := afterWrite_jobs s j w d n
  have hmono : ∀ k ∈ s.raised, k ∈ (afterWrite s j w d n).raised := by
    rw [hraised]
    exact observe_raised_mono d n (some j)
  obtain ⟨d1, hadv, hcases⟩ := write_spec next answer
  have hd1 := advance_eq hadv
  have hc1 : Coherent d1 := h.coherent.advance hadv
  have hag := h.agrees j job get
  have hlive : job.sched ≠ .waited := by
    rcases hcases with ⟨hst, -⟩ | ⟨hst, -⟩ | ⟨hst, -⟩ | ⟨hst, -⟩ <;> rw [hst] <;> decide
  have hopen : w.next = .waited → ∃ r, job.work = .replied r := by
    rcases hcases with ⟨-, hnext, -⟩ | ⟨-, hnext, -⟩ | ⟨-, hnext, -⟩ | ⟨-, hnext, -⟩ <;>
      rw [hnext] <;> simp
  rcases hcases with ⟨hst, hnext, heq⟩ | ⟨hst, hnext, heq⟩ | ⟨hst, hnext, heq⟩ | ⟨hst, hnext, hsub⟩
  · have hd : d = (reset d1).1 := congrArg Prod.fst heq
    refine h.moved get hlive hjobs ?_ hmono ?_ hopen
    · rw [hdev, hd]
      exact coherent_reset d1
    · rw [hnext, Agrees, hdev, hd]
      exact ⟨rfl, rfl⟩
  · rw [hst, Agrees] at hag
    obtain ⟨rfl, rfl⟩ := Prod.mk.inj heq
    refine h.moved get hlive hjobs ?_ hmono ?_ hopen
    · rw [hdev]
      exact hc1.congr rfl rfl rfl
    · rw [hnext, Agrees, hdev, hd1]
      exact hag
  · rw [hst, Agrees] at hag
    obtain ⟨rfl, rfl⟩ := Prod.mk.inj heq
    refine h.moved get hlive hjobs ?_ hmono ?_ hopen
    · rw [hdev]
      exact hc1.congr rfl rfl rfl
    · rw [hnext, Agrees, hdev, hd1]
      exact hag
  · rw [hst, Agrees] at hag
    refine h.moved get hlive hjobs ?_ hmono ?_ hopen
    · rw [hdev]
      exact hc1.submit hsub
    · -- the device was idle: it takes the job or rejects it, both for `j` itself
      rw [hnext, Agrees, hdev, howner, hraised]
      have hidle : d1.busy = false := by rw [hd1]; exact hag.1
      rcases submit_cases hsub with ⟨hbusy, -, -⟩ | ⟨-, -, -, rfl⟩ | ⟨-, -, -, _, -, -, rfl, rfl⟩
      · rw [hidle] at hbusy
        cases hbusy
      · exact .inr (List.mem_append.mpr (.inl (by simp)))
      · exact .inl ⟨rfl, rfl⟩

theorem InStep.completed (h : InStep s) {d : Dev} {n : Note}
    (answer : apply p s.dev .completion = some (.ok (d, n))) : InStep (s.observe d n none) := by
  obtain ⟨tick, hev, heq⟩ := completion_spec answer
  have hbusy : s.dev.busy = true := h.coherent.busy_iff_event.mpr (by rw [hev]; rfl)
  have hd : d = (onComplete p { s.dev with curTick := tick, completeEvent := none }).1 :=
    congrArg Prod.fst heq
  have hn : n = .completed (totalBytes s.dev) := congrArg Prod.snd heq
  constructor
  · rw [observe_dev, hd]
    exact coherent_onComplete rfl
  · rw [observe_jobs]
    exact h.last
  · rw [observe_jobs]
    exact h.answered
  · intro i job hget
    rw [observe_jobs] at hget
    have hag := h.agrees i job hget
    rw [hn]
    cases hst : job.sched with
    | resetDone => rw [hst] at hag; exact absurd hbusy (by rw [hag.1]; decide)
    | srcDone => rw [hst] at hag; exact absurd hbusy (by rw [hag.1]; decide)
    | dstDone => rw [hst] at hag; exact absurd hbusy (by rw [hag.1]; decide)
    | returned =>
      rw [hst] at hag
      refine .inr (List.mem_append.mpr ?_)
      rcases hag with ⟨-, howner⟩ | hmem
      · exact .inl (by rw [howner]; simp)
      · exact .inr hmem
    | sent => trivial
    | locked => trivial
    | waited => trivial
  · intro i job hget hwork
    rw [observe_jobs] at hget
    exact observe_raised_mono d n none i (h.raised i job hget hwork)

theorem read_status (d : Dev) (h : Coherent d) : read p d offStatus .w4 = d.statusReg := by
  have hread : read p d offStatus .w4 = d.statusReg % 2 ^ 32 := rfl
  rw [hread]
  rcases h.status_range with hs | hs | hs | hs <;> rw [hs] <;> rfl

-- the clock moves, nothing else of the device
theorem InStep.advanced (h : InStep s) {tick : ℕ} {d : Dev} (hadv : advance s.dev tick = some d) :
    InStep { s with dev := d } := by
  have hd := advance_eq hadv
  refine ⟨h.coherent.advance hadv, h.last, h.answered, fun i job hget => ?_, h.raised⟩
  refine (h.agrees i job hget).mono ?_ ?_ rfl fun _ hk => hk
  · dsimp only
    rw [hd]
  · dsimp only
    rw [hd]

/-- A poll that ends the loop saw the job's own result. -/
theorem InStep.poll_own (h : InStep s) {j tick : ℕ} {job : Job} {d : Dev}
    (get : s.jobs[j]? = some job) (stage : job.work = .polling) (hfresh : Fresh s (.poll j tick))
    (hadv : advance s.dev tick = some d) (hits : pollEnds (read p d offStatus .w4) = true) :
    j ∈ s.raised := by
  have hst : read p d offStatus .w4 = s.dev.statusReg := by
    rw [read_status d (h.coherent.advance hadv), advance_eq hadv]
  rw [hst] at hits
  have hag := h.agrees j job get
  have hzero : s.dev.statusReg = 0 → j ∈ s.raised := by
    intro h0
    rw [h0] at hits
    cases hits
  cases hs : job.sched with
  | sent =>
    rw [hfresh job get (.inl hs)] at hits
    cases hits
  | locked =>
    rw [hfresh job get (.inr hs)] at hits
    cases hits
  | resetDone => rw [hs] at hag; exact hzero hag.2
  | srcDone => rw [hs] at hag; exact hzero hag.2
  | dstDone => rw [hs] at hag; exact hzero hag.2
  | returned =>
    rw [hs] at hag
    rcases hag with ⟨hbusy, -⟩ | hmem
    · rw [h.coherent.busy_iff_status.mp hbusy] at hits
      cases hits
    · exact hmem
  | waited =>
    obtain ⟨r, hr⟩ := h.answered j job get hs
    rw [stage] at hr
    cases hr

theorem InStep.step {a : Action} (h : InStep s) (hfresh : Fresh s a)
    (hs : step p oneAtATime s a = some t) : InStep t := by
  cases step_sound p oneAtATime hs with
  | @schedule bytes free =>
    have hover := free rfl
    -- every job before the new one is over
    have hcases : ∀ i job, (s.jobs ++ [⟨bytes, .sent, .inSocket⟩])[i]? = some job →
        (s.jobs[i]? = some job ∧ job.sched = .waited) ∨
        (i = s.jobs.length ∧ job = ⟨bytes, .sent, .inSocket⟩) := by
      intro i job hget
      rcases Table.concat_cases hget with hold | hnew
      · exact .inl ⟨hold, hover job (List.mem_of_getElem? hold)⟩
      · exact .inr hnew
    refine ⟨h.coherent, ?_, ?_, ?_, ?_⟩
    · intro i job hget hw
      rcases hcases i job hget with ⟨-, hwaited⟩ | ⟨rfl, -⟩
      · exact absurd hwaited hw
      · simp
    · intro i job hget hw
      rcases hcases i job hget with ⟨hold, -⟩ | ⟨-, rfl⟩
      · exact h.answered i job hold hw
      · cases hw
    · intro i job hget
      rcases hcases i job hget with ⟨-, hwaited⟩ | ⟨-, rfl⟩
      · rw [hwaited]
        trivial
      · trivial
    · intro i job hget hwork
      rcases hcases i job hget with ⟨hold, -⟩ | ⟨-, rfl⟩
      · exact h.raised i job hold hwork
      · rcases hwork with hw | hw <;> cases hw
  | @lockMmio j job get stage free mapped =>
    have hlive : job.sched ≠ .waited := by rw [stage]; decide
    exact h.moved get hlive rfl h.coherent (fun _ hk => hk) trivial (by simp)
  | write get next answer => exact h.wrote get next answer
  | skipMmio get stage unmapped => cases unmapped
  | @wait j job r get stage answered =>
    have hlive : job.sched ≠ .waited := by rw [stage]; decide
    exact h.moved get hlive rfl h.coherent (fun _ hk => hk) trivial fun _ => ⟨r, answered⟩
  | receive get stage => exact h.worked _ get (by simp [stage]) (by simp)
  | lockCompact get stage free =>
    exact (h.worked .compacting get (by simp [stage]) (by simp)).congr rfl rfl rfl rfl
  | compactOk get stage => exact h.worked _ get (by simp [stage]) (by simp [oneAtATime])
  | compactFailed get stage =>
    exact (h.worked (.replied .failure) get (by simp [stage]) (by simp)).congr
      rfl rfl rfl rfl
  | @fallback j ok job get stage =>
    refine (h.worked (.replied (if ok then .fallbackSuccess else .failure)) get
      (by simp [stage]) ?_).congr rfl rfl rfl rfl
    cases ok <;> simp
  | pollMiss get stage clock misses => exact h.advanced clock
  | @pollHit j tick job d get stage clock hits =>
    have hown := h.poll_own get stage hfresh clock hits
    exact (h.advanced clock).worked _ get (by simp [stage]) fun _ => hown
  | @reply j job get stage =>
    have hown := h.raised j job get (.inl stage)
    exact (h.worked (.replied .success) get (by simp [stage]) fun _ => hown).congr
      rfl rfl rfl rfl
  | completion answer => exact h.completed answer

/-! ### Nothing is raised for a job before its own submit

This holds in every run, with or without `Fresh`. -/

def Submitted (stage : SchedStage) : Prop := stage = .returned ∨ stage = .waited

def HasSubmitted (s : State) (i : ℕ) : Prop :=
  ∃ job, s.jobs[i]? = some job ∧ Submitted job.sched

theorem HasSubmitted.setSched {i j : ℕ} {job : Job} (stage : SchedStage) (h : HasSubmitted s i)
    (get : s.jobs[j]? = some job) (hs : Submitted job.sched → Submitted stage) :
    HasSubmitted (s.setSched j stage) i := by
  obtain ⟨old, hold, hsub⟩ := h
  unfold HasSubmitted
  rw [getElem?_setSched]
  split
  · next hij =>
    rw [hij, hold] at get
    obtain rfl := Option.some.inj get
    exact ⟨_, by rw [hold]; rfl, hs hsub⟩
  · exact ⟨old, hold, hsub⟩

theorem HasSubmitted.setWork {i j : ℕ} (stage : WorkStage) (h : HasSubmitted s i) :
    HasSubmitted (s.setWork j stage) i := by
  obtain ⟨old, hold, hsub⟩ := h
  unfold HasSubmitted
  rw [getElem?_setWork]
  split
  · exact ⟨{ old with work := stage }, by rw [hold]; rfl, hsub⟩
  · exact ⟨old, hold, hsub⟩

structure Owned (s : State) : Prop where
  raised : ∀ i ∈ s.raised, HasSubmitted s i
  owner : ∀ i, s.owner = some i → HasSubmitted s i

theorem owned_init : Owned init := by
  constructor <;> simp [init]

-- a step that raises nothing and loses no submitted job
theorem Owned.keep (h : Owned s) (hsub : ∀ i, HasSubmitted s i → HasSubmitted t i)
    (hr : t.raised = s.raised) (ho : t.owner = s.owner) : Owned t := by
  constructor
  · intro i hi
    rw [hr] at hi
    exact hsub i (h.raised i hi)
  · intro i hi
    rw [ho] at hi
    exact hsub i (h.owner i hi)

theorem Owned.observe (h : Owned s) {d : Dev} {n : Note} {j : Option ℕ}
    (hsub : ∀ i, HasSubmitted s i → HasSubmitted t i)
    (hj : (∃ total, n = .accepted total) ∨ n = .rejected → ∀ i, j = some i → HasSubmitted t i)
    (hr : t.raised = (s.observe d n j).raised) (ho : t.owner = (s.observe d n j).owner) :
    Owned t := by
  cases n with
  | accepted total =>
    refine ⟨fun i hi => hsub i (h.raised i (by rw [hr] at hi; exact hi)), fun i hi => ?_⟩
    rw [ho] at hi
    exact hj (.inl ⟨total, rfl⟩) i hi
  | rejected =>
    refine ⟨fun i hi => ?_, fun i hi => hsub i (h.owner i (by rw [ho] at hi; exact hi))⟩
    rw [hr] at hi
    rcases List.mem_append.mp hi with hnew | hold
    · exact hj (.inr rfl) i (Option.mem_toList.mp hnew)
    · exact hsub i (h.raised i hold)
  | cancelled =>
    refine ⟨fun i hi => hsub i (h.raised i (by rw [hr] at hi; exact hi)), fun i hi => ?_⟩
    rw [ho] at hi
    cases hi
  | completed total =>
    refine ⟨fun i hi => ?_, fun i hi => ?_⟩
    · rw [hr] at hi
      rcases List.mem_append.mp hi with hnew | hold
      · exact hsub i (h.owner i (Option.mem_toList.mp hnew))
      · exact hsub i (h.raised i hold)
    · rw [ho] at hi
      cases hi
  | quiet => exact h.keep hsub hr ho
  | value v => exact h.keep hsub hr ho
  | ignored => exact h.keep hsub hr ho

theorem Owned.wrote (h : Owned s) {j tick : ℕ} {job : Job} {w : RegisterWrite} {d : Dev}
    {n : Note} (get : s.jobs[j]? = some job) (next : nextWrite job.bytes job.sched = some w)
    (answer : apply p s.dev (.mmioWrite tick w.off w.width w.data) = some (.ok (d, n))) :
    Owned (afterWrite s j w d n) := by
  obtain ⟨-, -, howner, hraised⟩ := afterWrite_eq s j w d n
  have hjobs := afterWrite_jobs s j w d n
  obtain ⟨d1, -, hcases⟩ := write_spec next answer
  -- only the last write comes from a stage that is followed by `returned`
  have hstage : ¬ Submitted job.sched ∧
      ((∃ total, n = .accepted total) ∨ n = .rejected → w.next = .returned) := by
    rcases hcases with ⟨hst, -, heq⟩ | ⟨hst, -, heq⟩ | ⟨hst, -, heq⟩ | ⟨hst, hnext, -⟩
    · have hn : n = (reset d1).2 := congrArg Prod.snd heq
      refine ⟨by rw [hst]; simp [Submitted], ?_⟩
      rw [hn, reset]
      dsimp only
      split <;> simp
    · obtain ⟨-, rfl⟩ := Prod.mk.inj heq
      exact ⟨by rw [hst]; simp [Submitted], by simp⟩
    · obtain ⟨-, rfl⟩ := Prod.mk.inj heq
      exact ⟨by rw [hst]; simp [Submitted], by simp⟩
    · exact ⟨by rw [hst]; simp [Submitted], fun _ => hnext⟩
  refine h.observe (fun i hi => ?_) (fun hn i hi => ?_) hraised howner
  · have hset := hi.setSched w.next get fun hs => absurd hs hstage.1
    unfold HasSubmitted at hset ⊢
    rw [hjobs]
    exact hset
  · obtain rfl := Option.some.inj hi
    unfold HasSubmitted
    rw [hjobs, getElem?_setSched, if_pos rfl, get]
    exact ⟨_, rfl, .inl (hstage.2 hn)⟩

theorem Owned.step {c : Setup} {a : Action} (h : Owned s) (hs : step p c s a = some t) :
    Owned t := by
  cases step_sound p c hs with
  | schedule free =>
    refine h.keep (fun i hi => ?_) rfl rfl
    obtain ⟨job, hget, hsub⟩ := hi
    obtain ⟨hlt, -⟩ := List.getElem?_eq_some_iff.mp hget
    exact ⟨job, (List.getElem?_append_left hlt).trans hget, hsub⟩
  | @lockMmio j job get stage free mapped =>
    refine h.keep (fun i hi => ?_) rfl rfl
    exact hi.setSched _ get (by rw [stage]; simp [Submitted])
  | write get next answer => exact h.wrote get next answer
  | @skipMmio j job get stage unmapped =>
    exact h.keep (fun i hi => hi.setSched _ get (by simp [Submitted])) rfl rfl
  | wait get stage answered =>
    exact h.keep (fun i hi => hi.setSched _ get (by simp [Submitted])) rfl rfl
  | receive get stage => exact h.keep (fun i hi => hi.setWork _) rfl rfl
  | lockCompact get stage free => exact h.keep (fun i hi => hi.setWork .compacting) rfl rfl
  | compactOk get stage => exact h.keep (fun i hi => hi.setWork _) rfl rfl
  | compactFailed get stage => exact h.keep (fun i hi => hi.setWork (.replied .failure)) rfl rfl
  | @fallback j ok job get stage =>
    exact h.keep (fun i hi => hi.setWork (.replied (if ok then .fallbackSuccess else .failure)))
      rfl rfl
  | pollMiss get stage clock misses => exact h.keep (fun i hi => hi) rfl rfl
  | pollHit get stage clock hits => exact h.keep (fun i hi => hi.setWork .answering) rfl rfl
  | reply get stage => exact h.keep (fun i hi => hi.setWork (.replied .success)) rfl rfl
  | @completion d n answer =>
    refine h.observe (fun i hi => ?_) (fun _ i hi => by cases hi) rfl rfl
    unfold HasSubmitted
    rw [observe_jobs]
    exact hi

/-! ### The guarantee of `Wait` -/

theorem inStep_run {as : List Action} (hm : Meets (step p oneAtATime) Fresh init as)
    (h : exec (step p oneAtATime) init as = some s) : InStep s :=
  exec_invariant_of_meets (fun _ _ _ hi hc hs => hi.step hc hs) inStep_init hm h

theorem owned_run {c : Setup} {as : List Action} (h : exec (step p c) init as = some s) :
    Owned s :=
  exec_invariant (fun _ _ _ hi hs => hi.step hs) owned_init h

/-- A poll that is not fresh ends the loop for a job that has not submitted. -/
theorem stale_poll_answers {c : Setup} {as : List Action} (h : exec (step p c) init as = some s)
    {j tick : ℕ} (hs : step p c s (.poll j tick) = some t) (hstale : ¬ Fresh s (.poll j tick)) :
    j ∉ t.raised ∧ ∃ u, step p c t (.reply j) = some u := by
  simp only [Fresh, not_forall] at hstale
  obtain ⟨job, hget, hbefore, hends⟩ := hstale
  have hends : pollEnds s.dev.statusReg = true := by simpa using hends
  have hread : ∀ {d : Dev}, advance s.dev tick = some d →
      read p d offStatus .w4 = s.dev.statusReg := by
    intro d hadv
    rw [read_status d ((coherent_run h).advance hadv), advance_eq hadv]
  have hnot : j ∉ s.raised := by
    intro hmem
    obtain ⟨job', hget', hsub⟩ := (owned_run h).raised j hmem
    obtain rfl := Option.some.inj (hget'.symm.trans hget)
    rcases hbefore with hb | hb <;> rcases hsub with hw | hw <;> rw [hb] at hw <;> cases hw
  cases step_sound p c hs with
  | pollMiss get stage clock misses =>
    rw [hread clock, hends] at misses
    cases misses
  | @pollHit _ _ job' d get stage clock hits =>
    refine ⟨hnot, ?_⟩
    have hnext : ({ s with dev := d }.setWork j .answering).jobs[j]? =
        some { job' with work := .answering } := by
      rw [getElem?_setWork, if_pos rfl]
      exact congrArg (Option.map _) get
    simp only [Doorbell.step, hnext]
    exact ⟨_, rfl⟩

/-- One job at a time, both processes mapped. If no poll ever finds `DONE` or
`ERROR` before the polling job's own `CMD_RESET`, a success reply is sent only
after the device has shown one of them for that job's own `CMD_SUBMIT`; and
after any poll that does, the success reply can be sent with nothing shown. -/
theorem reply_follows_own_completion (p : Params) (as : List Action) (s : State)
    (h : exec (step p oneAtATime) init as = some s) :
    (Meets (step p oneAtATime) Fresh init as →
      ∀ j t, step p oneAtATime s (.reply j) = some t → j ∈ s.raised) ∧
    (∀ j tick t, step p oneAtATime s (.poll j tick) = some t → ¬ Fresh s (.poll j tick) →
      j ∉ t.raised ∧ ∃ u, step p oneAtATime t (.reply j) = some u) := by
  constructor
  · intro hm j t hs
    have hi := inStep_run hm h
    cases step_sound p oneAtATime hs with
    | @reply _ job get stage => exact hi.raised j job get (.inl stage)
  · intro j tick t hs hstale
    exact stale_poll_answers h hs hstale

-- one job, up to the point where its reply can be sent
def firstJob : List Action :=
  [.schedule 100, .lockMmio 0, .write 0 1, .receive 0, .write 0 2, .lockCompact 0, .write 0 3,
    .write 0 4, .compact 0 true, .poll 0 1000, .completion, .poll 0 600000]

def firstJobState : State := (exec (step .exact oneAtATime) init firstJob).getD init

theorem reply_follows_own_completion_first :
    Meets (step .exact oneAtATime) Fresh init firstJob ∧
    (∃ t, step .exact oneAtATime firstJobState (.reply 0) = some t) ∧
    0 ∈ firstJobState.raised := by
  have hmeets : Meets (step .exact oneAtATime) Fresh init firstJob := by decide +kernel
  have hreply : ((step .exact oneAtATime firstJobState (.reply 0)).isSome) = true := by
    decide +kernel
  obtain ⟨t, ht⟩ := Option.isSome_iff_exists.mp hreply
  have h := reply_follows_own_completion .exact firstJob firstJobState (by decide +kernel)
  exact ⟨hmeets, ⟨t, ht⟩, h.1 hmeets 0 t ht⟩

/-- The second job is compacted and polled while its `Schedule` has only sent the
request: the poll reads the `DONE` of the first job and the success reply goes
out before the second job's doorbell was rung at all. -/
theorem stale_done_answers_second_job :
    (exec (step .exact oneAtATime) init
        (firstJob ++ [.reply 0, .wait 0, .schedule 200, .receive 1, .lockCompact 1,
          .compact 1 true, .poll 1 600001, .reply 1])).map
      (fun s => (s.jobs.map (·.sched), s.jobs.map (·.work), s.raised)) =
      some ([.waited, .sent], [.replied .success, .replied .success], [0]) := by
  decide +kernel

end PnmCompaction.System.Handshake
