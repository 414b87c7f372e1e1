import PnmCompaction.Device.Invariant
import PnmCompaction.Lib.Table
import PnmCompaction.Worker.HandleJob

/-!
# Database process, worker and device

The three parties of an offloaded job run side by side: a `Schedule` call sends
the request and then rings the doorbell with four register writes under
`mmio_mutex_` (pnm_compaction_service.h:97-139); a worker thread receives the
request, compacts under `g_compact_mutex`, polls `STATUS` and replies
(pnm_unit_main.cc:136-261); the device completes jobs on its own clock. A run is
any interleaving of their steps, with any number of jobs.

`owner` and `raised` record, outside the program, whose submit the device is
working on and for whose own submit it has shown `DONE` or `ERROR`.
-/

namespace PnmCompaction.System.Doorbell

open PnmCompaction.Lib
open PnmCompaction.Lib.Exec
open PnmCompaction.Device

/-- A `Schedule` call that has sent its request, and the `Wait` after it. -/
inductive SchedStage where
  | sent
  /-- Holds `mmio_mutex_`. -/
  | locked
  | resetDone
  | srcDone
  | dstDone
  /-- Schedule has returned. -/
  | returned
  /-- Wait has returned. -/
  | waited
  deriving DecidableEq, Repr

inductive Reply where
  | failure
  | success
  /-- From `OpenAndCompact`, which does not poll. -/
  | fallbackSuccess
  deriving DecidableEq, Repr

/-- The worker thread of a job. -/
inductive WorkStage where
  /-- The request is still in the socket. -/
  | inSocket
  | received
  /-- Holds `g_compact_mutex`. -/
  | compacting
  | polling
  /-- The poll loop is left (or there is none), the success reply not yet sent. -/
  | answering
  | replied (r : Reply)
  deriving DecidableEq, Repr

structure Job where
  /-- `src_bytes`, the sum of the input file sizes. -/
  bytes : ℕ
  sched : SchedStage
  work : WorkStage
  deriving DecidableEq, Repr

/-- Who has `/dev/pnm` mapped, and whether RocksDB schedules a job only after
the `Wait` of the one before has returned. -/
structure Setup where
  serviceMapped : Bool
  workerMapped : Bool
  sequential : Bool
  deriving DecidableEq, Repr

structure State where
  dev : Dev
  jobs : List Job
  mmioLock : Option ℕ
  compactLock : Option ℕ
  owner : Option ℕ
  raised : List ℕ
  deriving DecidableEq, Repr

def init : State := ⟨Dev.init, [], none, none, none, []⟩

inductive Action where
  /-- Request frame of a new job sent. -/
  | schedule (bytes : ℕ)
  | lockMmio (j : ℕ)
  /-- The next register write of `Schedule`. -/
  | write (j tick : ℕ)
  /-- `mmio_base_` is null: Schedule returns at once. -/
  | skipMmio (j : ℕ)
  | wait (j : ℕ)
  | receive (j : ℕ)
  | lockCompact (j : ℕ)
  /-- The compaction ends on the persistent secondary. -/
  | compact (j : ℕ) (ok : Bool)
  | fallback (j : ℕ) (ok : Bool)
  | poll (j tick : ℕ)
  | reply (j : ℕ)
  | completion
  deriving DecidableEq, Repr

def State.setSched (s : State) (j : ℕ) (stage : SchedStage) : State :=
  { s with jobs := s.jobs.modify j fun job => { job with sched := stage } }

def State.setWork (s : State) (j : ℕ) (stage : WorkStage) : State :=
  { s with jobs := s.jobs.modify j fun job => { job with work := stage } }

/- The device took a step that was answered with `n`; `j` is the job whose
register write it was. -/
def State.observe (s : State) (d : Dev) (n : Note) (j : Option ℕ) : State :=
  match n with
  | .accepted _ => { s with dev := d, owner := j }
  | .rejected => { s with dev := d, raised := j.toList ++ s.raised }
  | .cancelled => { s with dev := d, owner := none }
  | .completed _ => { s with dev := d, raised := s.owner.toList ++ s.raised, owner := none }
  | _ => { s with dev := d }

structure RegisterWrite where
  off : ℕ
  width : Width
  data : ℕ
  next : SchedStage

/-- pnm_compaction_service.h:124-128: CMD_RESET, SRC, DST, CMD_SUBMIT; the lock
is released with the last one. -/
def nextWrite (bytes : ℕ) : SchedStage → Option RegisterWrite
  | .locked => some ⟨offCmd, .w4, cmdReset, .resetDone⟩
  | .resetDone => some ⟨offSrcBytes, .w8, bytes, .srcDone⟩
  | .srcDone => some ⟨offDstBytes, .w8, bytes, .dstDone⟩
  | .dstDone => some ⟨offCmd, .w4, cmdSubmit, .returned⟩
  | _ => none

/-- `st & kPNMStatusDone || st & kPNMStatusErr` (pnm_unit_main.cc:250). -/
def pollEnds (st : ℕ) : Bool := st &&& statusDone ≠ 0 || st &&& statusError ≠ 0

section Step

variable (p : Params) (c : Setup)

def step (s : State) : Action → Option State
  | .schedule bytes =>
    if c.sequential ∧ ¬ s.jobs.all (fun job => job.sched == .waited) then none
    else some { s with jobs := s.jobs ++ [⟨bytes, .sent, .inSocket⟩] }
  | .lockMmio j =>
    match s.jobs[j]?, s.mmioLock with
    | some ⟨_, .sent, _⟩, none =>
      if c.serviceMapped then some { s.setSched j .locked with mmioLock := some j } else none
    | _, _ => none
  | .write j tick =>
    match s.jobs[j]? with
    | none => none
    | some job =>
      match nextWrite job.bytes job.sched with
      | none => none
      | some w =>
        match apply p s.dev (.mmioWrite tick w.off w.width w.data) with
        | some (.ok (d, n)) =>
          let s' := (s.observe d n (some j)).setSched j w.next
          some (if w.next = .returned then { s' with mmioLock := none } else s')
        | _ => none
  | .skipMmio j =>
    match s.jobs[j]? with
    | some ⟨_, .sent, _⟩ => if c.serviceMapped then none else some (s.setSched j .returned)
    | _ => none
  | .wait j =>
    match s.jobs[j]? with
    | some ⟨_, .returned, .replied _⟩ => some (s.setSched j .waited)
    | _ => none
  | .receive j =>
    match s.jobs[j]? with
    | some ⟨_, _, .inSocket⟩ => some (s.setWork j .received)
    | _ => none
  | .lockCompact j =>
    match s.jobs[j]?, s.compactLock with
    | some ⟨_, _, .received⟩, none => some { s.setWork j .compacting with compactLock := some j }
    | _, _ => none
  | .compact j ok =>
    match s.jobs[j]? with
    | some ⟨_, _, .compacting⟩ =>
      if ok then some (s.setWork j (if c.workerMapped then .polling else .answering))
      else some { s.setWork j (.replied .failure) with compactLock := none }
    | _ => none
  | .fallback j ok =>
    match s.jobs[j]? with
    | some ⟨_, _, .compacting⟩ =>
      some { s.setWork j (.replied (if ok then .fallbackSuccess else .failure)) with
        compactLock := none }
    | _ => none
  | .poll j tick =>
    match s.jobs[j]?, apply p s.dev (.mmioRead tick offStatus .w4) with
    | some ⟨_, _, .polling⟩, some (.ok (d, .value st)) =>
      let s' := s.observe d (.value st) none
      some (if pollEnds st then s'.setWork j .answering else s')
    | _, _ => none
  | .reply j =>
    match s.jobs[j]? with
    | some ⟨_, _, .answering⟩ =>
      some { s.setWork j (.replied .success) with compactLock := none }
    | _ => none
  | .completion =>
    match apply p s.dev .completion with
    | some (.ok (d, n)) => some (s.observe d n none)
    | _ => none

/-! ### What a step can do -/

-- the state after a register write of job `j` that the device answered with `d` and `n`
def afterWrite (s : State) (j : ℕ) (w : RegisterWrite) (d : Dev) (n : Note) : State :=
  let s' := (s.observe d n (some j)).setSched j w.next
  if w.next = .returned then { s' with mmioLock := none } else s'

inductive Step (s : State) : Action → State → Prop where
  | schedule {bytes} (free : c.sequential = true → ∀ job ∈ s.jobs, job.sched = .waited) :
      Step s (.schedule bytes) { s with jobs := s.jobs ++ [⟨bytes, .sent, .inSocket⟩] }
  | lockMmio {j job} (get : s.jobs[j]? = some job) (stage : job.sched = .sent)
      (free : s.mmioLock = none) (mapped : c.serviceMapped = true) :
      Step s (.lockMmio j) { s.setSched j .locked with mmioLock := some j }
  | write {j tick job w d n} (get : s.jobs[j]? = some job)
      (next : nextWrite job.bytes job.sched = some w)
      (answer : apply p s.dev (.mmioWrite tick w.off w.width w.data) = some (.ok (d, n))) :
      Step s (.write j tick) (afterWrite s j w d n)
  | skipMmio {j job} (get : s.jobs[j]? = some job) (stage : job.sched = .sent)
      (unmapped : c.serviceMapped = false) : Step s (.skipMmio j) (s.setSched j .returned)
  | wait {j job r} (get : s.jobs[j]? = some job) (stage : job.sched = .returned)
      (answered : job.work = .replied r) : Step s (.wait j) (s.setSched j .waited)
  | receive {j job} (get : s.jobs[j]? = some job) (stage : job.work = .inSocket) :
      Step s (.receive j) (s.setWork j .received)
  | lockCompact {j job} (get : s.jobs[j]? = some job) (stage : job.work = .received)
      (free : s.compactLock = none) :
      Step s (.lockCompact j) { s.setWork j .compacting with compactLock := some j }
  | compactOk {j job} (get : s.jobs[j]? = some job) (stage : job.work = .compacting) :
      Step s (.compact j true) (s.setWork j (if c.workerMapped then .polling else .answering))
  | compactFailed {j job} (get : s.jobs[j]? = some job) (stage : job.work = .compacting) :
      Step s (.compact j false) { s.setWork j (.replied .failure) with compactLock := none }
  | fallback {j ok job} (get : s.jobs[j]? = some job) (stage : job.work = .compacting) :
      Step s (.fallback j ok)
        { s.setWork j (.replied (if ok then .fallbackSuccess else .failure)) with
          compactLock := none }
  | pollMiss {j tick job d} (get : s.jobs[j]? = some job) (stage : job.work = .polling)
      (clock : advance s.dev tick = some d) (misses : pollEnds (read p d offStatus .w4) = false) :
      Step s (.poll j tick) { s with dev := d }
  | pollHit {j tick job d} (get : s.jobs[j]? = some job) (stage : job.work = .polling)
      (clock : advance s.dev tick = some d) (hits : pollEnds (read p d offStatus .w4) = true) :
      Step s (.poll j tick) ({ s with dev := d }.setWork j .answering)
  | reply {j job} (get : s.jobs[j]? = some job) (stage : job.work = .answering) :
      Step s (.reply j) { s.setWork j (.replied .success) with compactLock := none }
  | completion {d n} (answer : apply p s.dev .completion = some (.ok (d, n))) :
      Step s .completion (s.observe d n none)

theorem step_sound {s t : State} {a : Action} (h : step p c s a = some t) : Step p c s a t := by
  cases a with
  | schedule bytes =>
    simp only [step] at h
    split at h
    · cases h
    · next hfree =>
      rw [← Option.some.inj h]
      refine .schedule fun hseq job hjob => ?_
      have hall : s.jobs.all (fun job => job.sched == .waited) = true := by
        by_contra hno
        exact hfree ⟨hseq, hno⟩
      exact beq_iff_eq.mp (List.all_eq_true.mp hall job hjob)
  | lockMmio j =>
    simp only [step] at h
    split at h
    · next hget hlock =>
      split at h
      · next hm => rw [← Option.some.inj h]; exact .lockMmio hget rfl hlock hm
      · cases h
    · cases h
  | write j tick =>
    simp only [step] at h
    split at h
    · cases h
    · next job hget =>
      split at h
      · cases h
      · next w hw =>
        split at h
        · next d n ha => rw [← Option.some.inj h]; exact .write hget hw ha
        · cases h
  | skipMmio j =>
    simp only [step] at h
    split at h
    · next hget =>
      split at h
      · cases h
      · next hm =>
        rw [← Option.some.inj h]
        exact .skipMmio hget rfl (Bool.eq_false_iff.mpr hm)
    · cases h
  | wait j =>
    simp only [step] at h
    split at h
    · next hget => rw [← Option.some.inj h]; exact .wait hget rfl rfl
    · cases h
  | receive j =>
    simp only [step] at h
    split at h
    · next hget => rw [← Option.some.inj h]; exact .receive hget rfl
    · cases h
  | lockCompact j =>
    simp only [step] at h
    split at h
    · next hget hlock => rw [← Option.some.inj h]; exact .lockCompact hget rfl hlock
    · cases h
  | compact j ok =>
    simp only [step] at h
    split at h
    · next hget =>
      cases ok with
      | true => rw [← Option.some.inj h]; exact .compactOk hget rfl
      | false => rw [← Option.some.inj h]; exact .compactFailed hget rfl
    · cases h
  | fallback j ok =>
    simp only [step] at h
    split at h
    · next hget => rw [← Option.some.inj h]; exact .fallback hget rfl
    · cases h
  | poll j tick =>
    simp only [step] at h
    split at h
    · next bytes sched d st hget ha =>
      simp only [apply, Option.map_eq_some_iff, Except.ok.injEq, Prod.mk.injEq,
        Note.value.injEq] at ha
      obtain ⟨d1, hadv, rfl, rfl⟩ := ha
      split at h
      · next hp => rw [← Option.some.inj h]; exact .pollHit hget rfl hadv hp
      · next hp =>
        rw [← Option.some.inj h]
        exact .pollMiss hget rfl hadv (Bool.eq_false_iff.mpr hp)
    · cases h
  | reply j =>
    simp only [step] at h
    split at h
    · next hget => rw [← Option.some.inj h]; exact .reply hget rfl
    · cases h
  | completion =>
    simp only [step] at h
    split at h
    · next d n ha => rw [← Option.some.inj h]; exact .completion ha
    · cases h

end Step

/-! ### Reading the state after an update -/

theorem getElem?_setSched (s : State) (j i : ℕ) (stage : SchedStage) :
    (s.setSched j stage).jobs[i]? =
      if j = i then (s.jobs[i]?).map fun job => { job with sched := stage } else s.jobs[i]? := by
  rw [State.setSched, Table.getElem?_modify_ite]

theorem getElem?_setWork (s : State) (j i : ℕ) (stage : WorkStage) :
    (s.setWork j stage).jobs[i]? =
      if j = i then (s.jobs[i]?).map fun job => { job with work := stage } else s.jobs[i]? := by
  rw [State.setWork, Table.getElem?_modify_ite]

@[simp] theorem observe_jobs (s : State) (d : Dev) (n : Note) (j : Option ℕ) :
    (s.observe d n j).jobs = s.jobs := by
  cases n <;> rfl

@[simp] theorem observe_dev (s : State) (d : Dev) (n : Note) (j : Option ℕ) :
    (s.observe d n j).dev = d := by
  cases n <;> rfl

theorem afterWrite_eq (s : State) (j : ℕ) (w : RegisterWrite) (d : Dev) (n : Note) :
    (afterWrite s j w d n).dev = d ∧
    (afterWrite s j w d n).jobs = ((s.observe d n (some j)).setSched j w.next).jobs ∧
    (afterWrite s j w d n).owner = (s.observe d n (some j)).owner ∧
    (afterWrite s j w d n).raised = (s.observe d n (some j)).raised := by
  unfold afterWrite
  dsimp only
  split
  · exact ⟨observe_dev s d n (some j), rfl, rfl, rfl⟩
  · exact ⟨observe_dev s d n (some j), rfl, rfl, rfl⟩

theorem afterWrite_lock (s : State) (j : ℕ) (w : RegisterWrite) (d : Dev) (n : Note) :
    (afterWrite s j w d n).mmioLock = if w.next = .returned then none else s.mmioLock := by
  unfold afterWrite
  dsimp only
  split
  · rfl
  · cases n <;> rfl

theorem afterWrite_jobs (s : State) (j : ℕ) (w : RegisterWrite) (d : Dev) (n : Note) :
    (afterWrite s j w d n).jobs = (s.setSched j w.next).jobs := by
  obtain ⟨-, hjobs, -, -⟩ := afterWrite_eq s j w d n
  rw [hjobs, State.setSched, observe_jobs, State.setSched]

theorem setWork_cases {s : State} {j i : ℕ} {stage : WorkStage} {job : Job}
    (h : (s.setWork j stage).jobs[i]? = some job) :
    ∃ old, s.jobs[i]? = some old ∧ job.sched = old.sched ∧ job.bytes = old.bytes ∧
      (job.work = old.work ∨ job.work = stage) := by
  rcases Table.modify_cases h with ⟨-, hold⟩ | ⟨rfl, old, hold, rfl⟩
  · exact ⟨job, hold, rfl, rfl, .inl rfl⟩
  · exact ⟨old, hold, rfl, rfl, .inr rfl⟩

theorem write_spec {p : Params} {dev d : Dev} {n : Note} {bytes tick : ℕ} {stage : SchedStage}
    {w : RegisterWrite} (next : nextWrite bytes stage = some w)
    (answer : apply p dev (.mmioWrite tick w.off w.width w.data) = some (.ok (d, n))) :
    ∃ d1, advance dev tick = some d1 ∧
      ((stage = .locked ∧ w.next = .resetDone ∧ (d, n) = reset d1) ∨
       (stage = .resetDone ∧ w.next = .srcDone ∧
          (d, n) = ({ d1 with srcBytesReg := bytes % 2 ^ 64 }, .quiet)) ∨
       (stage = .srcDone ∧ w.next = .dstDone ∧
          (d, n) = ({ d1 with dstBytesReg := bytes % 2 ^ 64 }, .quiet)) ∨
       (stage = .dstDone ∧ w.next = .returned ∧ submit p d1 = .ok (d, n))) := by
  simp only [apply, Option.map_eq_some_iff] at answer
  obtain ⟨d1, hadv, hw⟩ := answer
  refine ⟨d1, hadv, ?_⟩
  cases stage with
  | locked =>
    obtain rfl := Option.some.inj next
    rw [write_cmdReset, Except.ok.injEq] at hw
    exact .inl ⟨rfl, rfl, hw.symm⟩
  | resetDone =>
    obtain rfl := Option.some.inj next
    rw [write_src, Except.ok.injEq] at hw
    exact .inr (.inl ⟨rfl, rfl, hw.symm⟩)
  | srcDone =>
    obtain rfl := Option.some.inj next
    rw [write_dst, Except.ok.injEq] at hw
    exact .inr (.inr (.inl ⟨rfl, rfl, hw.symm⟩))
  | dstDone =>
    obtain rfl := Option.some.inj next
    rw [write_cmdSubmit] at hw
    exact .inr (.inr (.inr ⟨rfl, rfl, hw⟩))
  | sent => cases next
  | returned => cases next
  | waited => cases next

theorem completion_spec {p : Params} {dev d : Dev} {n : Note}
    (answer : apply p dev .completion = some (.ok (d, n))) :
    ∃ tick, dev.completeEvent = some tick ∧
      (d, n) = onComplete p { dev with curTick := tick, completeEvent := none } := by
  simp only [apply] at answer
  split at answer
  · cases answer
  · next tick he => exact ⟨tick, he, (Except.ok.inj (Option.some.inj answer)).symm⟩

/-! ### The device stays coherent -/

theorem coherent_step {p : Params} {c : Setup} {s t : State} {a : Action} (h : Coherent s.dev)
    (hs : step p c s a = some t) : Coherent t.dev := by
  cases step_sound p c hs with
  | @write j tick job w d n get next answer =>
    rw [(afterWrite_eq s j w d n).1]
    exact h.effect (apply_sound answer)
  | @completion d n answer =>
    rw [observe_dev]
    exact h.effect (apply_sound answer)
  | pollMiss get stage clock misses => exact h.advance clock
  | pollHit get stage clock hits => exact h.advance clock
  | _ => exact h

theorem coherent_run {p : Params} {c : Setup} {s : State} {as : List Action}
    (h : exec (step p c) init as = some s) : Coherent s.dev :=
  exec_invariant (fun _ _ _ hi hs => coherent_step hi hs) coherent_init h

end PnmCompaction.System.Doorbell
