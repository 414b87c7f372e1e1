import PnmCompaction.Service.Replies

/-!
# `PNMCompactionService::Schedule` and the jobs that stay local

`Schedule` (pnm_compaction_service.h:78-139) with `connect_to_unit` (182-200), as
the list of its effects under a script of what the kernel answers: the socket,
each attempt to connect, each `send`. A `send` that fails has queued nothing. The
mutex around the register writes and the log lines are left out.

The last part places the call among the other jobs: its effects are actions of
`Connections`, and there no run compacts a job that gave up.
-/

namespace PnmCompaction.Service.Schedule

open PnmCompaction.Lib
open PnmCompaction.Lib.Exec
open PnmCompaction.Lib.LittleEndian
open PnmCompaction.Lib.Transfer
open PnmCompaction.Ipc.Frame
open PnmCompaction.Worker
open PnmCompaction.Service.Connections (Request Job ClientStage State Action step Step step_sound)

/-- `CompactionServiceJobInfo`; the id is `job_id_ << 32 | sub_job_id`. -/
structure JobInfo where
  dbName : Bytes
  jobId : ℕ
  deriving DecidableEq

structure Kernel where
  socket : Option ℕ
  connect : ℕ → Bool
  send : List Answer

inductive Event
  | opened (fd : ℕ)
  | closed (fd : ℕ)
  | sent (fd : ℕ) (bytes : Bytes)
  | wrote (off value : ℕ)
  deriving DecidableEq

inductive Response
  | useLocal
  | success (scheduledJobId : Bytes)
  deriving DecidableEq

def request (info : JobInfo) (input : Bytes) : Request :=
  ⟨info.dbName, toU32 (info.jobId / 2 ^ 32), input⟩

/-- The loop over the 50 attempts to connect, with `n` of them left. -/
def connectLoop (connect : ℕ → Bool) : ℕ → Bool
  | 0 => false
  | n + 1 => if connect (49 - n) then true else connectLoop connect n

def connectToUnit (k : Kernel) : Option ℕ × List Event :=
  match k.socket with
  | none => (none, [])
  | some sock =>
    if connectLoop k.connect 50 then (some sock, [.opened sock])
    else (none, [.opened sock, .closed sock])

section Schedule

-- the file names of `CompactionServiceInput::Read`, and the sizes `stat` returns
variable (readFiles : Bytes → Option (List Bytes)) (stat : Bytes → Option ℕ)

def fullPath (dbName fname : Bytes) : Bytes :=
  if fname.head? = some 47 then fname else dbName ++ 47 :: fname

def srcBytes (dbName input : Bytes) : ℕ :=
  match readFiles input with
  | none => 0
  | some files =>
    files.foldl (fun total fname =>
      match stat (fullPath dbName fname) with
      | some size => (total + size) % 2 ^ 64
      | none => total) 0

def doorbell (src : ℕ) : List Event :=
  [.wrote Device.offCmd Device.cmdReset, .wrote Device.offSrcBytes src,
    .wrote Device.offDstBytes src, .wrote Device.offCmd Device.cmdSubmit]

/-- `Schedule` on the service with or without a mapped device; `none`: it is still
in the sending loop. -/
def schedule (mmioMapped : Bool) (info : JobInfo) (input : Bytes) (k : Kernel) :
    Option (Response × List Event) :=
  let req := request info input
  match connectToUnit k with
  | (none, es) => some (.useLocal, es)
  | (some sock, es) =>
    let r := pnmSendFrame k.send req.message
    match r.ret with
    | none => none
    | some false => some (.useLocal, es ++ [.sent sock r.out, .closed sock])
    | some true =>
      let writes := if mmioMapped then doorbell (srcBytes readFiles stat info.dbName input) else []
      some (.success (scheduledId req.rdbJob sock), es ++ .sent sock r.out :: writes)

end Schedule

def openAfter (es : List Event) : List ℕ :=
  es.foldl (fun fds e =>
    match e with
    | .opened fd => fd :: fds
    | .closed fd => fds.erase fd
    | _ => fds) []

def sentBytes (es : List Event) : Bytes :=
  es.flatMap fun e =>
    match e with
    | .sent _ bytes => bytes
    | _ => []

/-! ### The failure points -/

theorem connectLoop_eq_false (connect : ℕ → Bool) {n : ℕ} (hn : n ≤ 50) :
    connectLoop connect n = false ↔ ∀ i, 50 ≤ i + n → i < 50 → connect i = false := by
  induction n with
  | zero => exact ⟨fun _ i hi hlt => by omega, fun _ => rfl⟩
  | succ n ih =>
    rw [connectLoop]
    by_cases hc : connect (49 - n) = true
    · rw [if_pos hc]
      refine ⟨fun h => absurd h (by simp), fun h => ?_⟩
      rw [h (49 - n) (by omega) (by omega)] at hc
      cases hc
    · rw [if_neg hc, ih (by omega)]
      refine ⟨fun h i hi hlt => ?_, fun h i hi hlt => h i (by omega) hlt⟩
      rcases Nat.lt_or_ge (i + n) 50 with hfirst | hlater
      · have hi' : i = 49 - n := by omega
        rw [hi']
        exact Bool.eq_false_iff.mpr hc
      · exact h i hlater hlt

theorem connectLoop_fifty (connect : ℕ → Bool) :
    connectLoop connect 50 = false ↔ ∀ i, i < 50 → connect i = false := by
  rw [connectLoop_eq_false connect le_rfl]
  exact ⟨fun h i hi => h i (by omega) hi, fun h i _ hi => h i hi⟩

/-- No socket, no connection in 50 attempts, or a failed `send`. -/
def Fails (k : Kernel) (msg : Bytes) : Prop :=
  k.socket = none ∨ (∀ i, i < 50 → k.connect i = false) ∨
    (pnmSendFrame k.send msg).ret = some false

variable {readFiles : Bytes → Option (List Bytes)} {stat : Bytes → Option ℕ}
variable {readInput : Bytes → Option CompactionServiceInput}
variable {mmioMapped : Bool} {info : JobInfo} {input : Bytes} {k : Kernel} {es : List Event}

theorem connectToUnit_none (h : k.socket = none) : connectToUnit k = (none, []) := by
  unfold connectToUnit
  rw [h]

theorem connectToUnit_refused {sock : ℕ} (h : k.socket = some sock)
    (hc : connectLoop k.connect 50 = false) :
    connectToUnit k = (none, [.opened sock, .closed sock]) := by
  unfold connectToUnit
  rw [h]
  exact if_neg (Bool.eq_false_iff.mp hc)

theorem connectToUnit_connected {sock : ℕ} (h : k.socket = some sock)
    (hc : connectLoop k.connect 50 = true) : connectToUnit k = (some sock, [.opened sock]) := by
  unfold connectToUnit
  rw [h]
  exact if_pos hc

/-- What a call has done when it returns kUseLocal. -/
inductive GivesUp (k : Kernel) (msg : Bytes) : List Event → Prop
  | noSocket (h : k.socket = none) : GivesUp k msg []
  | refused {sock : ℕ} (h : k.socket = some sock) (hc : connectLoop k.connect 50 = false) :
      GivesUp k msg [.opened sock, .closed sock]
  | cut {sock : ℕ} (h : k.socket = some sock)
      (hret : (pnmSendFrame k.send msg).ret = some false) :
      GivesUp k msg [.opened sock, .sent sock (pnmSendFrame k.send msg).out, .closed sock]

theorem schedule_useLocal
    (h : schedule readFiles stat mmioMapped info input k = some (.useLocal, es)) :
    GivesUp k (request info input).message es := by
  unfold schedule at h
  cases hs : k.socket with
  | none =>
    rw [connectToUnit_none hs] at h
    cases h
    exact .noSocket hs
  | some sock =>
    cases hc : connectLoop k.connect 50 with
    | false =>
      rw [connectToUnit_refused hs hc] at h
      cases h
      exact .refused hs hc
    | true =>
      rw [connectToUnit_connected hs hc] at h
      dsimp only at h
      split at h
      · cases h
      · next hret =>
        cases h
        exact .cut hs hret
      · cases h

theorem GivesUp.fails {msg : Bytes} (h : GivesUp k msg es) : Fails k msg := by
  cases h with
  | noSocket h => exact Or.inl h
  | refused h hc => exact Or.inr (Or.inl ((connectLoop_fifty k.connect).mp hc))
  | cut h hret => exact Or.inr (Or.inr hret)

theorem Fails.schedule (h : Fails k (request info input).message) :
    ∃ es, schedule readFiles stat mmioMapped info input k = some (.useLocal, es) := by
  unfold Schedule.schedule
  cases hs : k.socket with
  | none => exact ⟨[], by rw [connectToUnit_none hs]⟩
  | some sock =>
    cases hc : connectLoop k.connect 50 with
    | false => exact ⟨_, by rw [connectToUnit_refused hs hc]⟩
    | true =>
      rcases h with h | h | h
      · cases hs.symm.trans h
      · cases hc.symm.trans ((connectLoop_fifty k.connect).mpr h)
      · exact ⟨_, by simp only [connectToUnit_connected hs hc, h]; rfl⟩

theorem GivesUp.openAfter {msg : Bytes} (h : GivesUp k msg es) : openAfter es = [] := by
  cases h <;> simp [Schedule.openAfter]

theorem GivesUp.not_wrote {msg : Bytes} (h : GivesUp k msg es) (off value : ℕ) :
    .wrote off value ∉ es := by
  cases h <;> simp

theorem GivesUp.sentBytes {msg : Bytes} (h : GivesUp k msg es) :
    sentBytes es <+: frame msg ∧ (sentBytes es).length < (frame msg).length := by
  have hpos : 0 < (frame msg).length := by
    rw [frame_length]
    omega
  cases h with
  | noSocket h => exact ⟨List.nil_prefix, hpos⟩
  | refused h hc => exact ⟨List.nil_prefix, hpos⟩
  | @cut sock h hret =>
    have hsent : Schedule.sentBytes [.opened sock, .sent sock (pnmSendFrame k.send msg).out,
        .closed sock] = (pnmSendFrame k.send msg).out := by
      simp [Schedule.sentBytes]
    rw [hsent]
    exact ⟨pnmSendFrame_prefix_out _ _, pnmSendFrame_false _ _ hret⟩

/-- A worker thread that reads a part of a cut request ends without a reply, without
a compaction and without touching the process's state. -/
theorem handleJob_cut (readInput : Bytes → Option CompactionServiceInput) {msg wire : Bytes}
    (hw : wire <+: frame msg)
    (hcut : wire.length < (frame msg).length) {as : List Answer} {ok : Bool}
    (hret : (pnmRecvFrame as wire).ret = some ok) (g : Globals) (env : Env) :
    handleJob readInput g (if ok then some (pnmRecvFrame as wire).buf else none) env =
      some (g, ⟨none, none⟩) := by
  cases ok with
  | true => exact absurd hret (pnmRecvFrame_cut as hw hcut)
  | false => rfl

/-- `Schedule` returns kUseLocal exactly at the failure points. Then its socket is
closed, no register has been written, and whatever part of the request a worker
thread receives, it ends without a compaction. -/
theorem useLocal_leaves_nothing_behind (readFiles : Bytes → Option (List Bytes))
    (stat : Bytes → Option ℕ) (readInput : Bytes → Option CompactionServiceInput)
    (mmioMapped : Bool) (info : JobInfo) (input : Bytes) (k : Kernel) :
    ((∃ es, schedule readFiles stat mmioMapped info input k = some (.useLocal, es)) ↔
      Fails k (request info input).message) ∧
    ∀ es, schedule readFiles stat mmioMapped info input k = some (.useLocal, es) →
      openAfter es = [] ∧ (∀ off value, .wrote off value ∉ es) ∧
      ∀ (as : List Answer) (wire : Bytes) (ok : Bool) (g : Globals) (env : Env),
        wire <+: sentBytes es → (pnmRecvFrame as wire).ret = some ok →
        handleJob readInput g (if ok then some (pnmRecvFrame as wire).buf else none) env =
          some (g, ⟨none, none⟩) := by
  refine ⟨⟨fun h => ?_, fun h => h.schedule⟩, fun es h => ?_⟩
  · obtain ⟨es, hes⟩ := h
    exact (schedule_useLocal hes).fails
  · have hup := schedule_useLocal h
    obtain ⟨hpre, hlt⟩ := hup.sentBytes
    refine ⟨hup.openAfter, hup.not_wrote, fun as wire ok g env hw hret => ?_⟩
    exact handleJob_cut readInput (hw.trans hpre) (hw.length_le.trans_lt hlt) hret g env

-- the second `send` of the frame fails, on a service with a mapped device
def cutKernel : Kernel := ⟨some 5, fun i => i == 2, [.moved 3, .moved 2, .interrupted, .failed]⟩

def cutInfo : JobInfo := ⟨ascii "/db", 3 * 2 ^ 32 + 1⟩

def cutEvents : List Event :=
  [.opened 5, .sent 5 [18, 0, 0, 0, 3, 0, 0], .closed 5]

theorem useLocal_leaves_nothing_behind_cut :
    schedule (fun _ => none) (fun _ => none) true cutInfo [8, 8] cutKernel =
      some (.useLocal, cutEvents) ∧
    openAfter cutEvents = [] ∧ ∀ off value, .wrote off value ∉ cutEvents := by
  have hcut : schedule (fun _ => none) (fun _ => none) true cutInfo [8, 8] cutKernel =
      some (.useLocal, cutEvents) := by decide +kernel
  obtain ⟨hopen, hwrote, -⟩ := (useLocal_leaves_nothing_behind (fun _ => none) (fun _ => none)
    (fun _ => none) true cutInfo [8, 8] cutKernel).2 cutEvents hcut
  exact ⟨hcut, hopen, hwrote⟩

/-! ### Among the other jobs -/

def Response.stage : Response → ClientStage
  | .useLocal => .gaveUp
  | .success id => .scheduled id

def leftJob (req : Request) (sock : ℕ) (resp : Response) (es : List Event) : Job :=
  ⟨req, sock, resp.stage, sentBytes es, none, false, []⟩

section Steps

variable (readInput) {s : State} {js : List Job} {job : Job}

def withSocket (s : State) (req : Request) (sock : ℕ) : State :=
  { s with
    fds := Function.update s.fds sock (some (.socket s.jobs.length))
    jobs := s.jobs ++ [⟨req, sock, .connecting, [], none, false, []⟩] }

theorem exec_openSocket {t : State} {req : Request} {sock : ℕ} {a : Action}
    (hfree : s.fds sock = none) (ht : step readInput (withSocket s req sock) a = some t) :
    exec (step readInput) s [.openSocket req sock, a] = some t := by
  have hopen : step readInput s (.openSocket req sock) = some (withSocket s req sock) := by
    rw [step, if_pos hfree]
    rfl
  exact exec_cons.mpr ⟨_, hopen, exec_cons.mpr ⟨t, ht, rfl⟩⟩

theorem step_connectFails (hjobs : s.jobs = js ++ [job]) (hstage : job.client = .connecting) :
    ∃ t, step readInput s (.connectFails js.length) = some t ∧
      t.jobs = js ++ [{ job with client := .gaveUp }] ∧ t.fds job.fd = none := by
  have hget : s.jobs[js.length]? = some job := by simp [hjobs]
  have hstep : step readInput s (.connectFails js.length) = some
      ((s.close js.length job.fd).setJob js.length { job with client := .gaveUp }) := by
    simp only [step, hget, hstage, if_true]
  refine ⟨_, hstep, ?_, Function.update_self ..⟩
  simp [Connections.State.setJob, Connections.State.close, hjobs]

theorem step_send (hjobs : s.jobs = js ++ [job]) (hstage : job.client = .connecting)
    {as : List Answer} (hret : (pnmSendFrame as job.req.message).ret = some true) :
    ∃ t, step readInput s (.send js.length as) = some t ∧
      t.jobs = js ++ [{ job with
        toWorker := (pnmSendFrame as job.req.message).out
        client := .scheduled (scheduledId job.req.rdbJob job.fd) }] ∧ t.fds = s.fds := by
  have hget : s.jobs[js.length]? = some job := by simp [hjobs]
  have hstep : step readInput s (.send js.length as) = some (s.setJob js.length { job with
      toWorker := (pnmSendFrame as job.req.message).out
      client := .scheduled (scheduledId job.req.rdbJob job.fd) }) := by
    simp only [step, hget, hstage, hret, if_true]
  refine ⟨_, hstep, ?_, rfl⟩
  simp [Connections.State.setJob, hjobs]

theorem step_sendFails (hjobs : s.jobs = js ++ [job]) (hstage : job.client = .connecting)
    {as : List Answer} (hret : (pnmSendFrame as job.req.message).ret = some false) :
    ∃ t, step readInput s (.send js.length as) = some t ∧
      t.jobs = js ++ [{ job with
        toWorker := (pnmSendFrame as job.req.message).out
        client := .gaveUp }] ∧ t.fds job.fd = none := by
  have hget : s.jobs[js.length]? = some job := by simp [hjobs]
  have hstep : step readInput s (.send js.length as) = some
      ((s.close js.length job.fd).setJob js.length { job with
        toWorker := (pnmSendFrame as job.req.message).out
        client := .gaveUp }) := by
    simp only [step, hget, hstage, hret, if_true]
  refine ⟨_, hstep, ?_, Function.update_self ..⟩
  simp [Connections.State.setJob, Connections.State.close, hjobs]

end Steps

/-- A call of `Schedule` is a run of the connections: opening the socket, and then a
failure to connect or the send. -/
theorem schedule_is_run {s : State} {sock : ℕ} {resp : Response} (hsock : k.socket = some sock)
    (hfree : s.fds sock = none)
    (h : schedule readFiles stat mmioMapped info input k = some (resp, es)) :
    ∃ a t, exec (step readInput) s [.openSocket (request info input) sock, a] = some t ∧
      t.jobs = s.jobs ++ [leftJob (request info input) sock resp es] ∧
      (t.fds sock = none ↔ resp = .useLocal) := by
  have hjobs : (withSocket s (request info input) sock).jobs =
      s.jobs ++ [⟨request info input, sock, .connecting, [], none, false, []⟩] := rfl
  unfold schedule at h
  cases hc : connectLoop k.connect 50 with
  | false =>
    rw [connectToUnit_refused hsock hc] at h
    cases h
    obtain ⟨t, ht, hleft, hfds⟩ := step_connectFails readInput hjobs rfl
    exact ⟨_, t, exec_openSocket readInput hfree ht, hleft, fun _ => rfl, fun _ => hfds⟩
  | true =>
    rw [connectToUnit_connected hsock hc] at h
    dsimp only at h
    split at h
    · cases h
    · next hret =>
      cases h
      obtain ⟨t, ht, hleft, hfds⟩ := step_sendFails readInput hjobs rfl hret
      refine ⟨_, t, exec_openSocket readInput hfree ht, ?_, fun _ => rfl, fun _ => hfds⟩
      rw [hleft]
      simp [leftJob, Response.stage, sentBytes]
    · next hret =>
      cases h
      obtain ⟨t, ht, hleft, hfds⟩ := step_send readInput hjobs rfl hret
      have hheld : t.fds sock = some (.socket s.jobs.length) := by
        rw [hfds]
        exact Function.update_self ..
      refine ⟨_, t, exec_openSocket readInput hfree ht, ?_, fun hn => ?_, fun hresp => ?_⟩
      · rw [hleft]
        cases mmioMapped <;> simp [leftJob, Response.stage, sentBytes, doorbell]
      · cases hheld.symm.trans hn
      · cases hresp

/-- While a job has not been sent whole, its worker thread has had nothing to do. -/
structure Unrequested (job : Job) : Prop where
  cut : job.client = .connecting ∨ job.client = .gaveUp →
    job.toWorker <+: frame job.req.message ∧
      job.toWorker.length < (frame job.req.message).length
  unserved : job.client = .connecting ∨ job.client = .gaveUp →
    ∀ sv, job.served = some sv → sv.outcome = ⟨none, none⟩

-- past these two stages there is nothing to show
theorem unrequested_of_sent {job : Job} (h1 : job.client ≠ .connecting)
    (h2 : job.client ≠ .gaveUp) : Unrequested job :=
  ⟨fun h => absurd h (not_or.mpr ⟨h1, h2⟩), fun h => absurd h (not_or.mpr ⟨h1, h2⟩)⟩

theorem Unrequested.step {s t : State} {a : Action}
    (h : ∀ (j : ℕ) (job : Job), s.jobs[j]? = some job → Unrequested job)
    (hs : step readInput s a = some t) :
    ∀ (j : ℕ) (job : Job), t.jobs[j]? = some job → Unrequested job := by
  cases step_sound readInput hs with
  | openSocket free =>
    refine Table.forall_concat h ⟨fun _ => ⟨List.nil_prefix, ?_⟩, fun _ sv hsv => ?_⟩
    · rw [frame_length, List.length_nil]
      omega
    · cases hsv
  | connectFails get stage =>
    have hold := h _ _ get
    refine Table.forall_set h get ?_
    exact ⟨fun _ => hold.cut (Or.inl stage), fun _ => hold.unserved (Or.inl stage)⟩
  | sent get stage ret =>
    exact Table.forall_set h get (unrequested_of_sent (by simp) (by simp))
  | sendFails get stage ret =>
    have hold := h _ _ get
    refine Table.forall_set h get ?_
    exact ⟨fun _ => ⟨pnmSendFrame_prefix_out _ _, pnmSendFrame_false _ _ ret⟩,
      fun _ => hold.unserved (Or.inl stage)⟩
  | @receive j as wire env job ok g o get fresh pre ret run =>
    have hold := h _ _ get
    refine Table.forall_set h get ?_
    refine ⟨hold.cut, fun hstage sv hsv => ?_⟩
    obtain ⟨hpre, hlt⟩ := hold.cut hstage
    have hnone := handleJob_cut readInput (pre.trans hpre)
      (pre.length_le.trans_lt hlt) ret s.globals env
    obtain rfl := Option.some.inj hsv
    exact (Prod.mk.inj (Option.some.inj (run.symm.trans hnone))).2
  | respondNothing get served quiet reply =>
    have hold := h _ _ get
    refine Table.forall_set h get ?_
    exact ⟨hold.cut, hold.unserved⟩
  | respond get served quiet answer =>
    have hold := h _ _ get
    refine Table.forall_set h get ?_
    exact ⟨hold.cut, hold.unserved⟩
  | waitNoFd get stage noFd =>
    exact Table.forall_set h get (unrequested_of_sent (by simp) (by simp))
  | wait get stage isFd pre ret =>
    exact Table.forall_set h get (unrequested_of_sent (by simp) (by simp))
  | otherOpen free => exact h
  | otherClose other => exact h

/-- In every run, no worker thread compacts or answers a job that gave up. -/
theorem gaveUp_unserved (readInput : Bytes → Option CompactionServiceInput) (mmioMapped : Bool)
    (as : List Action) (s : State)
    (hr : exec (step readInput) (Connections.init mmioMapped) as = some s) (j : ℕ) (job : Job)
    (hget : s.jobs[j]? = some job) (hup : job.client = .gaveUp) (sv : Connections.Served)
    (hsv : job.served = some sv) : sv.outcome = ⟨none, none⟩ := by
  have hinv := exec_invariant
    (I := fun s : State => ∀ (j : ℕ) (job : Job), s.jobs[j]? = some job → Unrequested job)
    (fun _ _ _ h hs => Unrequested.step h hs) (by simp [Connections.init]) hr
  exact (hinv j job hget).unserved (Or.inr hup) sv hsv

end PnmCompaction.Service.Schedule
