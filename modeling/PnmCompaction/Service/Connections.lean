import PnmCompaction.Lib.Exec
import PnmCompaction.Service.Wait
import PnmCompaction.Worker.HandleJob

/-!
# Jobs, sockets and replies

Any number of `Schedule` and `Wait` calls of the database process, worker threads
and connections that die at any byte. The descriptor table is the database
process's own: a descriptor that was closed may be given out again, to another
job or to any other part of the process.

A connection is two byte streams. What one side has sent so far is recorded; the
other side reads some prefix of it, and the end of that prefix is the end of the
stream for it. `closes` records, outside the program, which job closed a
descriptor and to whom the descriptor belonged at that moment.
-/

namespace PnmCompaction.Service.Connections

open PnmCompaction.Lib.Exec
open PnmCompaction.Lib.LittleEndian
open PnmCompaction.Lib.Transfer
open PnmCompaction.Ipc.Frame
open PnmCompaction.Ipc.JobMessage
open PnmCompaction.Worker

structure Request where
  dbName : Bytes
  rdbJob : ℕ
  input : Bytes
  deriving DecidableEq, Repr

def Request.fields (req : Request) : Fields := ⟨req.dbName, decimal req.rdbJob, req.input⟩

def Request.message (req : Request) : Bytes :=
  PnmCompaction.Ipc.JobMessage.message req.dbName (decimal req.rdbJob) req.input

inductive Owner where
  | socket (job : ℕ)
  | other
  deriving DecidableEq, Repr

inductive ClientStage where
  /-- In Schedule, with the socket open. -/
  | connecting
  | scheduled (id : Bytes)
  /-- Schedule returned kUseLocal. -/
  | gaveUp
  /-- Wait returned; the caller's string before and after. -/
  | finished (status : JobStatus) (before after : Bytes)
  deriving DecidableEq, Repr

/-- What the worker thread of a job received and decided. -/
structure Served where
  globals : Globals
  msg : Option Bytes
  env : Env
  outcome : Outcome

structure Job where
  req : Request
  fd : ℕ
  client : ClientStage
  toWorker : Bytes
  served : Option Served
  responded : Bool
  toClient : Bytes

structure State where
  fds : ℕ → Option Owner
  jobs : List Job
  globals : Globals
  closes : List (ℕ × Option Owner)

def init (mmioMapped : Bool) : State := ⟨fun _ => none, [], .init mmioMapped, []⟩

inductive Action where
  | openSocket (req : Request) (fd : ℕ)
  | connectFails (j : ℕ)
  | send (j : ℕ) (as : List Answer)
  | receive (j : ℕ) (as : List Answer) (wire : Bytes) (env : Env)
  | respond (j : ℕ) (as : List Answer)
  | wait (j : ℕ) (as : List Answer) (wire result : Bytes)
  | otherOpen (fd : ℕ)
  | otherClose (fd : ℕ)

def State.setJob (s : State) (j : ℕ) (job : Job) : State := { s with jobs := s.jobs.set j job }

def State.close (s : State) (j fd : ℕ) : State :=
  { s with fds := Function.update s.fds fd none, closes := (j, s.fds fd) :: s.closes }

-- what the worker's side of the connection behind `fd` has sent; a descriptor
-- that is no socket of a job delivers nothing
def State.stream (s : State) (fd : ℕ) : Bytes :=
  match s.fds fd with
  | some (.socket k) => ((s.jobs[k]?).map (·.toClient)).getD []
  | _ => []

section Step

variable (readInput : Bytes → Option CompactionServiceInput)

def step (s : State) : Action → Option State
  | .openSocket req fd =>
    if s.fds fd = none then
      some { s with
        fds := Function.update s.fds fd (some (.socket s.jobs.length))
        jobs := s.jobs ++ [⟨req, fd, .connecting, [], none, false, []⟩] }
    else none
  | .connectFails j =>
    match s.jobs[j]? with
    | none => none
    | some job =>
      if job.client = .connecting then
        some ((s.close j job.fd).setJob j { job with client := .gaveUp })
      else none
  | .send j as =>
    match s.jobs[j]? with
    | none => none
    | some job =>
      if job.client = .connecting then
        let r := pnmSendFrame as job.req.message
        match r.ret with
        | none => none
        | some true =>
          some (s.setJob j { job with
            toWorker := r.out
            client := .scheduled (scheduledId job.req.rdbJob job.fd) })
        | some false =>
          some ((s.close j job.fd).setJob j { job with toWorker := r.out, client := .gaveUp })
      else none
  | .receive j as wire env =>
    match s.jobs[j]? with
    | none => none
    | some job =>
      if job.served.isNone ∧ wire <+: job.toWorker then
        let r := pnmRecvFrame as wire
        match r.ret with
        | none => none
        | some ok =>
          let msg := if ok then some r.buf else none
          match handleJob readInput s.globals msg env with
          | none => none
          | some (g, o) =>
            some ({ s with globals := g }.setJob j
              { job with served := some ⟨s.globals, msg, env, o⟩ })
      else none
  | .respond j as =>
    match s.jobs[j]? with
    | none => none
    | some job =>
      match job.served, job.responded with
      | some sv, false =>
        match sv.outcome.reply with
        | none => some (s.setJob j { job with responded := true })
        | some reply =>
          some (s.setJob j { job with
            responded := true
            toClient := (pnmSendFrame as reply).out })
      | _, _ => none
  | .wait j as wire result =>
    match s.jobs[j]? with
    | none => none
    | some job =>
      match job.client with
      | .scheduled id =>
        match waitFd id with
        | none => some (s.setJob j { job with client := .finished .failure result result })
        | some fd =>
          if wire <+: s.stream fd then
            match waitReply result as wire with
            | none => none
            | some (st, r) =>
              some ((s.close j fd).setJob j { job with client := .finished st result r })
          else none
      | _ => none
  | .otherOpen fd =>
    if s.fds fd = none then some { s with fds := Function.update s.fds fd (some .other) } else none
  | .otherClose fd =>
    if s.fds fd = some .other then some { s with fds := Function.update s.fds fd none } else none

/-! ### What a step can do -/

inductive Step (s : State) : Action → State → Prop where
  | openSocket {req fd} (free : s.fds fd = none) :
      Step s (.openSocket req fd) { s with
        fds := Function.update s.fds fd (some (.socket s.jobs.length))
        jobs := s.jobs ++ [⟨req, fd, .connecting, [], none, false, []⟩] }
  | connectFails {j job} (get : s.jobs[j]? = some job) (stage : job.client = .connecting) :
      Step s (.connectFails j) ((s.close j job.fd).setJob j { job with client := .gaveUp })
  | sent {j as job} (get : s.jobs[j]? = some job) (stage : job.client = .connecting)
      (ret : (pnmSendFrame as job.req.message).ret = some true) :
      Step s (.send j as) (s.setJob j { job with
        toWorker := (pnmSendFrame as job.req.message).out
        client := .scheduled (scheduledId job.req.rdbJob job.fd) })
  | sendFails {j as job} (get : s.jobs[j]? = some job) (stage : job.client = .connecting)
      (ret : (pnmSendFrame as job.req.message).ret = some false) :
      Step s (.send j as) ((s.close j job.fd).setJob j { job with
        toWorker := (pnmSendFrame as job.req.message).out
        client := .gaveUp })
  | receive {j as wire env job ok g o} (get : s.jobs[j]? = some job) (fresh : job.served = none)
      (pre : wire <+: job.toWorker) (ret : (pnmRecvFrame as wire).ret = some ok)
      (run : handleJob readInput s.globals (if ok then some (pnmRecvFrame as wire).buf else none)
        env = some (g, o)) :
      Step s (.receive j as wire env) ({ s with globals := g }.setJob j { job with
        served := some ⟨s.globals, if ok then some (pnmRecvFrame as wire).buf else none, env, o⟩ })
  | respondNothing {j as job sv} (get : s.jobs[j]? = some job) (served : job.served = some sv)
      (quiet : job.responded = false) (reply : sv.outcome.reply = none) :
      Step s (.respond j as) (s.setJob j { job with responded := true })
  | respond {j as job sv reply} (get : s.jobs[j]? = some job) (served : job.served = some sv)
      (quiet : job.responded = false) (answer : sv.outcome.reply = some reply) :
      Step s (.respond j as) (s.setJob j { job with
        responded := true
        toClient := (pnmSendFrame as reply).out })
  | waitNoFd {j as wire result job id} (get : s.jobs[j]? = some job)
      (stage : job.client = .scheduled id) (noFd : waitFd id = none) :
      Step s (.wait j as wire result)
        (s.setJob j { job with client := .finished .failure result result })
  | wait {j as wire result job id fd st r} (get : s.jobs[j]? = some job)
      (stage : job.client = .scheduled id) (isFd : waitFd id = some fd)
      (pre : wire <+: s.stream fd) (ret : waitReply result as wire = some (st, r)) :
      Step s (.wait j as wire result)
        ((s.close j fd).setJob j { job with client := .finished st result r })
  | otherOpen {fd} (free : s.fds fd = none) :
      Step s (.otherOpen fd) { s with fds := Function.update s.fds fd (some .other) }
  | otherClose {fd} (other : s.fds fd = some .other) :
      Step s (.otherClose fd) { s with fds := Function.update s.fds fd none }

theorem step_sound {s t : State} {a : Action} (h : step readInput s a = some t) :
    Step readInput s a t := by
  cases a with
  | openSocket req fd =>
    simp only [step] at h
    split at h
    · next hfree => rw [← Option.some.inj h]; exact .openSocket hfree
    · cases h
  | connectFails j =>
    simp only [step] at h
    split at h
    · cases h
    · next job hget =>
      split at h
      · next hst => rw [← Option.some.inj h]; exact .connectFails hget hst
      · cases h
  | send j as =>
    simp only [step] at h
    split at h
    · cases h
    · next job hget =>
      split at h
      · next hst =>
        split at h
        · cases h
        · next hret => rw [← Option.some.inj h]; exact .sent hget hst hret
        · next hret => rw [← Option.some.inj h]; exact .sendFails hget hst hret
      · cases h
  | receive j as wire env =>
    simp only [step] at h
    split at h
    · cases h
    · next job hget =>
      split at h
      · next hpre =>
        split at h
        · cases h
        · next ok hret =>
          split at h
          · cases h
          · next g o hrun =>
            rw [← Option.some.inj h]
            exact .receive hget (Option.isNone_iff_eq_none.mp hpre.1) hpre.2 hret hrun
      · cases h
  | respond j as =>
    simp only [step] at h
    split at h
    · cases h
    · next job hget =>
      split at h
      · next sv hsv hresp =>
        split at h
        · next hreply => rw [← Option.some.inj h]; exact .respondNothing hget hsv hresp hreply
        · next reply hreply => rw [← Option.some.inj h]; exact .respond hget hsv hresp hreply
      · cases h
  | wait j as wire result =>
    simp only [step] at h
    split at h
    · cases h
    · next job hget =>
      split at h
      · next id hst =>
        split at h
        · next hfd => rw [← Option.some.inj h]; exact .waitNoFd hget hst hfd
        · next fd hfd =>
          split at h
          · next hpre =>
            split at h
            · cases h
            · next st r hret => rw [← Option.some.inj h]; exact .wait hget hst hfd hpre hret
          · cases h
      · cases h
  | otherOpen fd =>
    simp only [step] at h
    split at h
    · next hfree => rw [← Option.some.inj h]; exact .otherOpen hfree
    · cases h
  | otherClose fd =>
    simp only [step] at h
    split at h
    · next hother => rw [← Option.some.inj h]; exact .otherClose hother
    · cases h

end Step

end PnmCompaction.Service.Connections
