import PnmCompaction.Lib.Table
import PnmCompaction.Service.Connections

/-!
# Every reply reaches the job it belongs to

Two invariants carry the result. `Sockets`: while a job's socket is open its
descriptor belongs to that job, so the number in the id string still means the
job's own connection when `Wait` reads from it and closes it. `JobSound`, which
looks at one job alone: what the worker thread has received and sent on the
connection.
-/

namespace PnmCompaction.Service.Connections

open PnmCompaction.Lib
open PnmCompaction.Lib.Exec
open PnmCompaction.Lib.LittleEndian
open PnmCompaction.Lib.Transfer
open PnmCompaction.Ipc.Frame
open PnmCompaction.Ipc.JobMessage
open PnmCompaction.Worker

variable {readInput : Bytes → Option CompactionServiceInput} {s t : State}

/-! ### Descriptors -/

def ClientStage.isOpen : ClientStage → Bool
  | .connecting | .scheduled _ => true
  | .gaveUp | .finished _ _ _ => false

structure Sockets (s : State) : Prop where
  held : ∀ (j : ℕ) (job : Job), s.jobs[j]? = some job → job.client.isOpen = true →
    s.fds job.fd = some (.socket j)
  counts : ∀ (j : ℕ) (job : Job), s.jobs[j]? = some job →
    (s.closes.map Prod.fst).count j = if job.client.isOpen then 0 else 1
  bound : ∀ e ∈ s.closes, e.1 < s.jobs.length
  own : ∀ e ∈ s.closes, e.2 = some (.socket e.1)

theorem sockets_init (mmioMapped : Bool) : Sockets (init mmioMapped) := by
  constructor <;> simp [init]

-- the job's socket stays as it is
theorem Sockets.keep (h : Sockets s) {j : ℕ} {job job' : Job} (get : s.jobs[j]? = some job)
    (hj : t.jobs = (s.setJob j job').jobs) (hfd : job'.fd = job.fd)
    (hopen : job'.client.isOpen = job.client.isOpen) (hfds : t.fds = s.fds)
    (hcl : t.closes = s.closes) : Sockets t := by
  constructor
  · intro i found hget ho
    rw [hj] at hget
    rw [hfds]
    rcases Table.set_cases get hget with ⟨rfl, rfl⟩ | ⟨-, hold⟩
    · rw [hfd]
      exact h.held i job get (hopen ▸ ho)
    · exact h.held i found hold ho
  · intro i found hget
    rw [hj] at hget
    rw [hcl]
    rcases Table.set_cases get hget with ⟨rfl, rfl⟩ | ⟨-, hold⟩
    · rw [hopen]
      exact h.counts i job get
    · exact h.counts i found hold
  · rw [hcl, hj, State.setJob, List.length_set]
    exact h.bound
  · rw [hcl]
    exact h.own

-- the job's open socket is closed in a call on the job's behalf
theorem Sockets.closed (h : Sockets s) {j : ℕ} {job job' : Job} (get : s.jobs[j]? = some job)
    (hopen : job.client.isOpen = true) (hover : job'.client.isOpen = false) :
    Sockets ((s.close j job.fd).setJob j job') := by
  have hown := h.held j job get hopen
  obtain ⟨hlt, -⟩ := List.getElem?_eq_some_iff.mp get
  have hget' : (s.close j job.fd).jobs[j]? = some job := get
  constructor
  · intro i found hget ho
    rcases Table.set_cases hget' hget with ⟨-, rfl⟩ | ⟨hne, hold⟩
    · rw [hover] at ho
      cases ho
    · have hheld := h.held i found hold ho
      have hfd : found.fd ≠ job.fd := by
        intro heq
        rw [heq, hown] at hheld
        exact hne (Owner.socket.inj (Option.some.inj hheld)).symm
      change Function.update s.fds job.fd none found.fd = _
      rw [Function.update_of_ne hfd]
      exact hheld
  · intro i found hget
    change ((j :: s.closes.map Prod.fst).count i) = _
    rw [List.count_cons]
    rcases Table.set_cases hget' hget with ⟨rfl, rfl⟩ | ⟨hne, hold⟩
    · rw [h.counts i job get, hopen, hover]
      simp
    · rw [h.counts i found hold]
      simp [Ne.symm hne]
  · intro e he
    change e ∈ (j, s.fds job.fd) :: s.closes at he
    have hlen : ((s.close j job.fd).setJob j job').jobs.length = s.jobs.length := by
      rw [State.setJob, List.length_set]
      rfl
    rw [hlen]
    rcases List.mem_cons.mp he with rfl | hmem
    · exact hlt
    · exact h.bound e hmem
  · intro e he
    change e ∈ (j, s.fds job.fd) :: s.closes at he
    rcases List.mem_cons.mp he with rfl | hmem
    · exact hown
    · exact h.own e hmem

theorem Sockets.opened (h : Sockets s) {req : Request} {fd : ℕ} (free : s.fds fd = none) :
    Sockets { s with
      fds := Function.update s.fds fd (some (.socket s.jobs.length))
      jobs := s.jobs ++ [⟨req, fd, .connecting, [], none, false, []⟩] } := by
  constructor
  · intro i found hget ho
    rcases Table.concat_cases hget with hold | ⟨rfl, rfl⟩
    · have hheld := h.held i found hold ho
      have hfd : found.fd ≠ fd := by
        intro heq
        rw [heq, free] at hheld
        cases hheld
      dsimp only
      rw [Function.update_of_ne hfd]
      exact hheld
    · exact Function.update_self ..
  · intro i found hget
    rcases Table.concat_cases hget with hold | ⟨rfl, rfl⟩
    · exact h.counts i found hold
    · refine List.count_eq_zero.mpr fun hmem => ?_
      obtain ⟨e, he, heq⟩ := List.mem_map.mp hmem
      have hlt := h.bound e he
      omega
  · intro e he
    have hlt := h.bound e he
    simp only [List.length_append, List.length_singleton]
    omega
  · exact h.own

-- another part of the process opens or closes a descriptor of its own
theorem Sockets.others (h : Sockets s) {fd : ℕ} {o : Option Owner}
    (hfd : ∀ j, s.fds fd ≠ some (.socket j)) :
    Sockets { s with fds := Function.update s.fds fd o } := by
  refine ⟨fun j job hget ho => ?_, h.counts, h.bound, h.own⟩
  have hheld := h.held j job hget ho
  have hne : job.fd ≠ fd := by
    intro heq
    rw [heq] at hheld
    exact hfd j hheld
  dsimp only
  rw [Function.update_of_ne hne]
  exact hheld

/-! ### One job's connection -/

/-- The bytes that came from the job's own `Schedule`. -/
def Received (toWorker buf : Bytes) : Prop :=
  ∃ as wire, wire <+: toWorker ∧ (pnmRecvFrame as wire).ret = some true ∧
    (pnmRecvFrame as wire).buf = buf

structure ServedSound (readInput : Bytes → Option CompactionServiceInput) (toWorker : Bytes)
    (sv : Served) : Prop where
  handled : ∃ g, handleJob readInput sv.globals sv.msg sv.env = some (g, sv.outcome)
  received : ∀ buf, sv.msg = some buf → Received toWorker buf
  short : ∀ out, sv.env.compacted = some out → out.length < 2 ^ 32 - 1

/-- `r` is the result the job's own worker thread sent, complete, for the request
it received from the job. -/
structure OwnResult (readInput : Bytes → Option CompactionServiceInput) (job : Job)
    (sv : Served) (r : Bytes) : Prop where
  served : job.served = some sv
  complete : job.toClient = frame (0 :: r)
  replied : sv.outcome.reply = some (0 :: r)
  handled : ∃ g, handleJob readInput sv.globals sv.msg sv.env = some (g, sv.outcome)
  request : sv.msg = some (job.req.message.take (toU32 job.req.message.length))
  compacted : ∃ f csi c, sv.msg.bind parseJob = some f ∧
    (job.req.message.length < 2 ^ 32 → f = job.req.fields) ∧ readInput f.input = some csi ∧
    sv.outcome.compaction = some c ∧ c.inputFiles = csi.inputFiles ∧ sv.env.compacted = some r

structure JobSound (readInput : Bytes → Option CompactionServiceInput) (job : Job) : Prop where
  ident : ∀ id, job.client = .scheduled id → id = scheduledId job.req.rdbJob job.fd
  unsent : job.client = .connecting → job.toWorker = []
  sent : job.client ≠ .connecting → job.client ≠ .gaveUp → job.toWorker = frame job.req.message
  silent : job.responded = false → job.toClient = []
  answered : job.responded = true → job.served ≠ none
  served : ∀ sv, job.served = some sv → ServedSound readInput job.toWorker sv
  reply : ∀ sv, job.served = some sv →
    job.toClient <+: (sv.outcome.reply.map frame).getD []
  success : ∀ before r, job.client = .finished .success before r →
    ∃ sv, OwnResult readInput job sv r

theorem Received.mono {a b buf : Bytes} (h : Received a buf) (hab : a <+: b) : Received b buf := by
  obtain ⟨as, wire, hw, hret, hbuf⟩ := h
  exact ⟨as, wire, hw.trans hab, hret, hbuf⟩

theorem ServedSound.mono {a b : Bytes} {sv : Served} (h : ServedSound readInput a sv)
    (hab : a <+: b) : ServedSound readInput b sv :=
  ⟨h.handled, fun buf hb => (h.received buf hb).mono hab, h.short⟩

theorem ServedSound.reply_length {toWorker : Bytes} {sv : Served}
    (h : ServedSound readInput toWorker sv) {reply : Bytes} (hr : sv.outcome.reply = some reply) :
    reply.length < 2 ^ 32 := by
  obtain ⟨g, hrun⟩ := h.handled
  rcases handleJob_reply hrun hr with rfl | ⟨out, hout, rfl⟩
  · simp [failureReply]
  · have hlt := h.short out hout
    rw [List.length_cons]
    omega

-- nothing has been sent unless the worker thread had a reply
theorem JobSound.toClient_cases {job : Job} (h : JobSound readInput job) :
    job.toClient = [] ∨ ∃ sv reply, job.served = some sv ∧ sv.outcome.reply = some reply ∧
      reply.length < 2 ^ 32 ∧ job.toClient <+: frame reply := by
  cases hr : job.responded with
  | false => exact .inl (h.silent hr)
  | true =>
    obtain ⟨sv, hsv⟩ := Option.ne_none_iff_exists'.mp (h.answered hr)
    have hpre := h.reply sv hsv
    cases hreply : sv.outcome.reply with
    | none =>
      rw [hreply] at hpre
      exact .inl (List.prefix_nil.mp hpre)
    | some reply =>
      rw [hreply] at hpre
      exact .inr ⟨sv, reply, hsv, hreply, (h.served sv hsv).reply_length hreply, hpre⟩

theorem JobSound.opened (req : Request) (fd : ℕ) :
    JobSound readInput ⟨req, fd, .connecting, [], none, false, []⟩ := by
  constructor <;> simp

theorem JobSound.scheduled {job : Job} (h : JobSound readInput job)
    (stage : job.client = .connecting) {as : List Answer}
    (ret : (pnmSendFrame as job.req.message).ret = some true) :
    JobSound readInput { job with
      toWorker := (pnmSendFrame as job.req.message).out
      client := .scheduled (scheduledId job.req.rdbJob job.fd) } where
  ident id hid := (ClientStage.scheduled.inj hid).symm
  unsent hc := by cases hc
  sent _ _ := pnmSendFrame_true _ _ ret
  silent := h.silent
  answered := h.answered
  served sv hsv := (h.served sv hsv).mono (by rw [h.unsent stage]; exact List.nil_prefix)
  reply := h.reply
  success before r hc := by cases hc

theorem JobSound.gaveUp {job : Job} (h : JobSound readInput job) {toWorker : Bytes}
    (hpre : job.toWorker <+: toWorker) :
    JobSound readInput { job with toWorker := toWorker, client := .gaveUp } where
  ident id hid := by cases hid
  unsent hc := by cases hc
  sent _ hne := absurd rfl hne
  silent := h.silent
  answered := h.answered
  served sv hsv := (h.served sv hsv).mono hpre
  reply := h.reply
  success before r hc := by cases hc

theorem JobSound.receive {job : Job} (h : JobSound readInput job) (fresh : job.served = none)
    {sv : Served} (hsv : ServedSound readInput job.toWorker sv) :
    JobSound readInput { job with served := some sv } := by
  have hresp : job.responded = false := by
    cases hr : job.responded with
    | false => rfl
    | true => exact absurd fresh (h.answered hr)
  refine ⟨h.ident, h.unsent, h.sent, h.silent, by simp, ?_, ?_, ?_⟩
  · intro sv' hsv'
    obtain rfl := Option.some.inj hsv'
    exact hsv
  · intro sv' _
    dsimp only
    rw [h.silent hresp]
    exact List.nil_prefix
  · intro before r hc
    obtain ⟨sv', hown⟩ := h.success before r hc
    rw [hown.served] at fresh
    cases fresh

theorem JobSound.respond {job : Job} (h : JobSound readInput job) {sv : Served}
    (served : job.served = some sv) (quiet : job.responded = false) {out : Bytes}
    (hout : out <+: (sv.outcome.reply.map frame).getD []) :
    JobSound readInput { job with responded := true, toClient := out } := by
  refine ⟨h.ident, h.unsent, h.sent, by simp, by simp [served], h.served, ?_, ?_⟩
  · intro sv' hsv'
    obtain rfl := Option.some.inj (hsv'.symm.trans served)
    exact hout
  · -- a job that got a success reply has been answered
    intro before r hc
    obtain ⟨sv', hown⟩ := h.success before r hc
    have hnil := h.silent quiet
    rw [hown.complete] at hnil
    have hlen := congrArg List.length hnil
    rw [frame_length, List.length_nil] at hlen
    omega

/-- A success that `Wait` reads from the job's own connection is the job's own result. -/
theorem JobSound.ownResult {job : Job} (h : JobSound readInput job)
    (hsent : job.toWorker = frame job.req.message) {result r wire : Bytes} {as : List Answer}
    (pre : wire <+: job.toClient) (ret : waitReply result as wire = some (.success, r)) :
    ∃ sv, OwnResult readInput job sv r := by
  obtain ⟨hret, hbuf⟩ := waitReply_success ret
  obtain ⟨hlen, -, -⟩ := pnmRecvFrame_true as wire hret
  rcases h.toClient_cases with hnil | ⟨sv, reply, hsv, hreply, hlt, hpre⟩
  · rw [hnil] at pre
    rw [List.prefix_nil.mp pre, List.length_nil] at hlen
    omega
  · have hw : wire <+: frame reply ++ [] := by
      rw [List.append_nil]
      exact pre.trans hpre
    have hreq : reply = 0 :: r := (pnmRecvFrame_frame as hlt hw hret).1.symm.trans hbuf
    -- the whole frame arrived, so all of it was sent
    have hcomplete : job.toClient = frame reply := by
      refine hpre.eq_of_length_le (pre.length_le.trans' (not_lt.mp fun hcut => ?_))
      exact pnmRecvFrame_cut as (pre.trans hpre) hcut hret
    have hss := h.served sv hsv
    obtain ⟨g, hrun⟩ := hss.handled
    rw [hreq] at hreply hcomplete
    obtain ⟨buf, f, db, csi, c, hmsg, hf, hcomp, hc⟩ := handleJob_compacts hrun hreply
    obtain ⟨as', wire', hw', hret', hbuf'⟩ := hss.received buf hmsg
    rw [hsent] at hw'
    have hcut : buf = job.req.message.take (toU32 job.req.message.length) :=
      hbuf'.symm.trans (received_of_frame as' _ hw' hret')
    refine ⟨sv, hsv, hcomplete, hreply, ⟨g, hrun⟩, by rw [hmsg, hcut], f, csi, c, ?_, ?_,
      hc.input, hcomp, hc.files, hc.result⟩
    · rw [hmsg]
      exact hf
    · intro hfit
      rw [hcut, toU32_of_lt hfit, List.take_length] at hf
      exact Option.some.inj (hf.symm.trans (parseJob_message hfit))

theorem JobSound.waited {job : Job} (h : JobSound readInput job) {id : Bytes}
    (stage : job.client = .scheduled id) {st : JobStatus} {result r wire : Bytes}
    {as : List Answer} (pre : wire <+: job.toClient)
    (ret : waitReply result as wire = some (st, r)) :
    JobSound readInput { job with client := .finished st result r } := by
  have hsent := h.sent (by simp [stage]) (by simp [stage])
  refine ⟨by simp, by simp, fun _ _ => hsent, h.silent, h.answered, h.served, h.reply, ?_⟩
  intro before r' hc
  obtain ⟨rfl, -, rfl⟩ := ClientStage.finished.inj hc
  obtain ⟨sv, hown⟩ := h.ownResult hsent pre ret
  exact ⟨sv, hown.served, hown.complete, hown.replied, hown.handled, hown.request, hown.compacted⟩

/-! ### Every run -/

/-- The serialized results are short enough for a frame. -/
def ShortResults (_ : State) : Action → Prop
  | .receive _ _ _ env => ∀ out, env.compacted = some out → out.length < 2 ^ 32 - 1
  | _ => True

structure Sound (readInput : Bytes → Option CompactionServiceInput) (s : State) : Prop where
  sockets : Sockets s
  jobs : ∀ (j : ℕ) (job : Job), s.jobs[j]? = some job → JobSound readInput job

theorem sound_init (mmioMapped : Bool) : Sound readInput (init mmioMapped) :=
  ⟨sockets_init mmioMapped, by simp [init]⟩

/-- What `Wait` reads comes from the job's own connection. -/
theorem Sound.wait_own (h : Sound readInput s) {j fd : ℕ} {job : Job} {id : Bytes}
    (get : s.jobs[j]? = some job) (stage : job.client = .scheduled id)
    (isFd : waitFd id = some fd) :
    fd = job.fd ∧ s.stream fd = job.toClient := by
  have hid := (h.jobs j job get).ident id stage
  rw [hid, waitFd_scheduledId] at isFd
  obtain rfl := Option.some.inj isFd
  have hheld := h.sockets.held j job get (by rw [stage]; rfl)
  refine ⟨rfl, ?_⟩
  unfold State.stream
  rw [hheld]
  dsimp only
  rw [get]
  rfl

theorem Sound.step {a : Action} (h : Sound readInput s) (hshort : ShortResults s a)
    (hs : step readInput s a = some t) : Sound readInput t := by
  cases step_sound readInput hs with
  | openSocket free =>
    exact ⟨h.sockets.opened free, Table.forall_concat h.jobs (JobSound.opened _ _)⟩
  | @connectFails j job get stage =>
    have hnew := (h.jobs j job get).gaveUp (List.prefix_refl job.toWorker)
    exact ⟨h.sockets.closed get (by rw [stage]; rfl) rfl, Table.forall_set h.jobs get hnew⟩
  | @sent j as job get stage ret =>
    have hnew := (h.jobs j job get).scheduled stage ret
    exact ⟨h.sockets.keep get rfl rfl (by rw [stage]; rfl) rfl rfl,
      Table.forall_set h.jobs get hnew⟩
  | @sendFails j as job get stage ret =>
    have hpre : job.toWorker <+: (pnmSendFrame as job.req.message).out := by
      rw [(h.jobs j job get).unsent stage]
      exact List.nil_prefix
    have hnew := (h.jobs j job get).gaveUp hpre
    exact ⟨h.sockets.closed get (by rw [stage]; rfl) rfl, Table.forall_set h.jobs get hnew⟩
  | @receive j as wire env job ok g o get fresh pre ret run =>
    have hsv : ServedSound readInput job.toWorker
        ⟨s.globals, if ok then some (pnmRecvFrame as wire).buf else none, env, o⟩ := by
      refine ⟨⟨g, run⟩, fun buf hbuf => ?_, hshort⟩
      cases ok with
      | false => cases hbuf
      | true => exact ⟨as, wire, pre, ret, Option.some.inj hbuf⟩
    have hnew := (h.jobs j job get).receive fresh hsv
    exact ⟨h.sockets.keep get rfl rfl rfl rfl rfl, Table.forall_set h.jobs get hnew⟩
  | @respondNothing j as job sv get served quiet reply =>
    have hold := h.jobs j job get
    have hnew := hold.respond served quiet (hold.reply sv served)
    exact ⟨h.sockets.keep get rfl rfl rfl rfl rfl, Table.forall_set h.jobs get hnew⟩
  | @respond j as job sv reply get served quiet answer =>
    have hout : (pnmSendFrame as reply).out <+: (sv.outcome.reply.map frame).getD [] := by
      rw [answer]
      exact pnmSendFrame_prefix_out as reply
    have hnew := (h.jobs j job get).respond served quiet hout
    exact ⟨h.sockets.keep get rfl rfl rfl rfl rfl, Table.forall_set h.jobs get hnew⟩
  | @waitNoFd j as wire result job id get stage noFd =>
    -- an id of Schedule always has its descriptor
    rw [(h.jobs j job get).ident id stage, waitFd_scheduledId] at noFd
    cases noFd
  | @wait j as wire result job id fd st r get stage isFd pre ret =>
    obtain ⟨rfl, hstream⟩ := h.wait_own get stage isFd
    rw [hstream] at pre
    have hnew := (h.jobs j job get).waited stage pre ret
    exact ⟨h.sockets.closed get (by rw [stage]; rfl) rfl, Table.forall_set h.jobs get hnew⟩
  | otherOpen free => exact ⟨h.sockets.others (by simp [free]), h.jobs⟩
  | otherClose other => exact ⟨h.sockets.others (by simp [other]), h.jobs⟩

/-- Less than the worker's whole reply to the job arrives. -/
def Cut (job : Job) (wire : Bytes) : Prop :=
  ∀ sv reply, job.served = some sv → sv.outcome.reply = some reply →
    wire.length < (frame reply).length

theorem Sound.wait_cut (h : Sound readInput s) {j : ℕ} {job : Job} {as : List Answer}
    {wire result : Bytes} (get : s.jobs[j]? = some job) (hcut : Cut job wire)
    (hs : Connections.step readInput s (.wait j as wire result) = some t) :
    ∃ job', t.jobs[j]? = some job' ∧ job'.client = .finished .useLocal result result := by
  obtain ⟨hlt, -⟩ := List.getElem?_eq_some_iff.mp get
  cases step_sound readInput hs with
  | @waitNoFd _ _ _ _ job' id get' stage noFd =>
    rw [(h.jobs j job' get').ident id stage, waitFd_scheduledId] at noFd
    cases noFd
  | @wait _ _ _ _ job' id fd st r get' stage isFd pre ret =>
    obtain rfl := Option.some.inj (get'.symm.trans get)
    obtain ⟨rfl, hstream⟩ := h.wait_own get stage isFd
    rw [hstream] at pre
    have hlocal : st = .useLocal ∧ r = result := by
      rcases (h.jobs j job' get).toClient_cases with hnil | ⟨sv, reply, hsv, hreply, hlen, hpre⟩
      · rw [hnil] at pre
        have hwire := List.prefix_nil.mp pre
        have hcut : wire.length < (frame []).length := by
          rw [hwire, frame_length]
          simp
        exact waitReply_cut (by rw [hwire]; exact List.nil_prefix) hcut ret
      · exact waitReply_cut (pre.trans hpre) (hcut sv reply hsv hreply) ret
    obtain ⟨rfl, rfl⟩ := hlocal
    exact ⟨_, List.getElem?_set_self hlt, rfl⟩

end PnmCompaction.Service.Connections
