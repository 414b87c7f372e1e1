import PnmCompaction.Service.Replies
import PnmCompaction.Worker.Databases

/-!
# The compaction behind a successful `Wait`

A result that `Wait` returns has come from the job's own worker thread. What that
thread compacted is another matter: it works on the one secondary the process has
opened (pnm_unit_main.cc:96-97) and on its default column family
(pnm_unit_main.cc:201-202). While all requests name one database this is the
compaction the job asks for.
-/

namespace PnmCompaction.Service.Connections

open PnmCompaction.Lib
open PnmCompaction.Lib.Exec
open PnmCompaction.Lib.LittleEndian
open PnmCompaction.Lib.Transfer
open PnmCompaction.Ipc.Frame
open PnmCompaction.Ipc.JobMessage
open PnmCompaction.Worker

variable {readInput : Bytes → Option CompactionServiceInput} {s t : State} {db : Bytes}

/-- The compaction that the request asks for: its database, its column family and
its input files. -/
def OwnCompaction (readInput : Bytes → Option CompactionServiceInput) (req : Request)
    (o : Outcome) : Prop :=
  ∃ csi c, readInput req.input = some csi ∧ o.compaction = some c ∧ c.db = req.dbName ∧
    c.columnFamily = csi.columnFamily ∧ c.inputFiles = csi.inputFiles

/-- All requests name one database and fit a frame, and a job of another column
family names a file that the default family does not have: in a database a file
number is used once. -/
def OneDatabase (readInput : Bytes → Option CompactionServiceInput) (db : Bytes) (s : State) :
    Action → Prop
  | .openSocket req _ => req.dbName = db ∧ req.message.length < 2 ^ 32
  | .receive j _ _ env => ∀ job csi, s.jobs[j]? = some job → readInput job.req.input = some csi →
      csi.columnFamily = kDefaultColumnFamilyName ∨
        ∃ n ∈ csi.inputFiles, n ∉ env.files db kDefaultColumnFamilyName
  | _ => True

structure JobWithin (readInput : Bytes → Option CompactionServiceInput) (db : Bytes)
    (job : Job) : Prop where
  database : job.req.dbName = db
  fits : job.req.message.length < 2 ^ 32
  sending : job.toWorker <+: frame job.req.message
  compacted : ∀ sv r, job.served = some sv → sv.outcome.reply = some (0 :: r) →
    OwnCompaction readInput job.req sv.outcome

structure Within (readInput : Bytes → Option CompactionServiceInput) (db : Bytes)
    (s : State) : Prop where
  secondary : ∀ sec, s.globals.secondary = some sec → sec.db = db
  jobs : ∀ (j : ℕ) (job : Job), s.jobs[j]? = some job → JobWithin readInput db job

theorem within_init (mmioMapped : Bool) : Within readInput db (init mmioMapped) :=
  ⟨by simp [init, Globals.init], by simp [init]⟩

-- a step that neither sends to the worker nor serves the job
theorem JobWithin.keep {job job' : Job} (h : JobWithin readInput db job) (hreq : job'.req = job.req)
    (hto : job'.toWorker = job.toWorker) (hserved : job'.served = job.served) :
    JobWithin readInput db job' := by
  refine ⟨hreq ▸ h.database, hreq ▸ h.fits, hto ▸ hreq ▸ h.sending, fun sv r hsv => ?_⟩
  rw [hreq]
  exact h.compacted sv r (hserved ▸ hsv)

theorem JobWithin.send {job : Job} (h : JobWithin readInput db job) (as : List Answer)
    (stage : ClientStage) :
    JobWithin readInput db { job with
      toWorker := (pnmSendFrame as job.req.message).out
      client := stage } :=
  ⟨h.database, h.fits, pnmSendFrame_prefix_out as job.req.message, h.compacted⟩

/-- The worker thread of a job parses the job's own request. -/
theorem JobWithin.parsed {job : Job} (h : JobWithin readInput db job) {as : List Answer}
    {wire : Bytes} {ok : Bool} (pre : wire <+: job.toWorker)
    (ret : (pnmRecvFrame as wire).ret = some ok) {f : Fields}
    (hf : (if ok then some (pnmRecvFrame as wire).buf else none).bind parseJob = some f) :
    f = job.req.fields := by
  cases ok with
  | false => cases hf
  | true =>
    have hbuf := received_of_frame as job.req.message (pre.trans h.sending) ret
    rw [toU32_of_lt h.fits, List.take_length] at hbuf
    rw [if_pos rfl, Option.bind_some, hbuf] at hf
    exact Option.some.inj (hf.symm.trans (parseJob_message h.fits))

theorem ownCompaction_of_compacts {env : Env} {req : Request} {o : Outcome}
    {csi : CompactionServiceInput} {c : Compaction} {r : Bytes} (hdb : req.dbName = db)
    (hcomp : o.compaction = some c) (hc : Compacts readInput env db req.fields csi c r)
    (hfamily : csi.columnFamily = kDefaultColumnFamilyName ∨
      ∃ n ∈ csi.inputFiles, n ∉ env.files db kDefaultColumnFamilyName) :
    OwnCompaction readInput req o := by
  refine ⟨csi, c, hc.input, hcomp, hc.database.trans hdb.symm, ?_, hc.files⟩
  rcases hc.family with hsame | hdefault
  · exact hsame
  rcases hfamily with hname | ⟨n, hn, hnot⟩
  · exact hdefault.trans hname.symm
  · have hfound := hc.found n (hc.files ▸ hn)
    rw [hdefault] at hfound
    exact absurd hfound hnot

theorem Within.step {a : Action} (h : Within readInput db s) (hone : OneDatabase readInput db s a)
    (hs : step readInput s a = some t) : Within readInput db t := by
  cases step_sound readInput hs with
  | @openSocket req fd free =>
    refine ⟨h.secondary, Table.forall_concat h.jobs ⟨hone.1, hone.2, List.nil_prefix, ?_⟩⟩
    intro sv r hsv
    cases hsv
  | @connectFails j job get stage =>
    exact ⟨h.secondary, Table.forall_set h.jobs get ((h.jobs j job get).keep rfl rfl rfl)⟩
  | @sent j as job get stage ret =>
    exact ⟨h.secondary, Table.forall_set h.jobs get ((h.jobs j job get).send as _)⟩
  | @sendFails j as job get stage ret =>
    exact ⟨h.secondary, Table.forall_set h.jobs get ((h.jobs j job get).send as _)⟩
  | @receive j as wire env job ok g o get fresh pre ret run =>
    have hjob := h.jobs j job get
    have hparsed := fun f => hjob.parsed (f := f) pre ret
    obtain ⟨hsec, hreply⟩ := handleJob_database run h.secondary
      fun f hf => (congrArg Fields.dbName (hparsed f hf)).trans hjob.database
    refine ⟨hsec, Table.forall_set h.jobs get
      ⟨hjob.database, hjob.fits, hjob.sending, fun sv r hsv hr => ?_⟩⟩
    obtain rfl := Option.some.inj hsv
    obtain ⟨f, csi, c, hf, hcomp, hc⟩ := hreply r hr
    rw [hparsed f hf] at hc
    exact ownCompaction_of_compacts hjob.database hcomp hc (hone job csi get hc.input)
  | @respondNothing j as job sv get served quiet reply =>
    exact ⟨h.secondary, Table.forall_set h.jobs get ((h.jobs j job get).keep rfl rfl rfl)⟩
  | @respond j as job sv reply get served quiet answer =>
    exact ⟨h.secondary, Table.forall_set h.jobs get ((h.jobs j job get).keep rfl rfl rfl)⟩
  | @waitNoFd j as wire result job id get stage noFd =>
    exact ⟨h.secondary, Table.forall_set h.jobs get ((h.jobs j job get).keep rfl rfl rfl)⟩
  | @wait j as wire result job id fd st r get stage isFd pre ret =>
    exact ⟨h.secondary, Table.forall_set h.jobs get ((h.jobs j job get).keep rfl rfl rfl)⟩
  | otherOpen free => exact ⟨h.secondary, h.jobs⟩
  | otherClose other => exact ⟨h.secondary, h.jobs⟩

/-- For any number of jobs and any interleaving, with every id waited on once and
results that fit a frame: a success of `Wait` is the complete reply of the job's
own worker thread to the job's own request; a reply cut off anywhere makes `Wait`
fall back to local compaction with the caller's string untouched; and each socket
of Schedule is closed once, by its own job, while the descriptor is its own. If
moreover all requests name one database, the result is that of the compaction the
job asks for. -/
theorem wait_returns_own_result (readInput : Bytes → Option CompactionServiceInput)
    (mmioMapped : Bool) (as : List Action) (s : State)
    (h : exec (step readInput) (init mmioMapped) as = some s)
    (hshort : Meets (step readInput) ShortResults (init mmioMapped) as) :
    (∀ (j : ℕ) (job : Job) (before r : Bytes), s.jobs[j]? = some job →
      job.client = .finished .success before r → ∃ sv, OwnResult readInput job sv r ∧
        ∀ db, Meets (step readInput) (OneDatabase readInput db) (init mmioMapped) as →
          OwnCompaction readInput job.req sv.outcome) ∧
    (∀ (j : ℕ) (job : Job) (answers : List Answer) (wire result : Bytes) (t : State),
      s.jobs[j]? = some job → Cut job wire →
      step readInput s (.wait j answers wire result) = some t →
      ∃ job', t.jobs[j]? = some job' ∧ job'.client = .finished .useLocal result result) ∧
    (∀ e ∈ s.closes, e.2 = some (.socket e.1)) ∧
    (∀ (j : ℕ) (job : Job), s.jobs[j]? = some job →
      (s.closes.map Prod.fst).count j = if job.client.isOpen then 0 else 1) := by
  have hsound : Sound readInput s :=
    exec_invariant_of_meets (fun _ _ _ hi hc hs => hi.step hc hs) (sound_init mmioMapped) hshort h
  refine ⟨?_, ?_, hsound.sockets.own, hsound.sockets.counts⟩
  · intro j job before r hget hc
    obtain ⟨sv, hown⟩ := (hsound.jobs j job hget).success before r hc
    refine ⟨sv, hown, fun db hone => ?_⟩
    have hwithin : Within readInput db s :=
      exec_invariant_of_meets (fun _ _ _ hi hc hs => hi.step hc hs) (within_init mmioMapped) hone h
    exact (hwithin.jobs j job hget).compacted sv r hown.served hown.replied
  · intro j job answers wire result t hget hcut hs
    exact hsound.wait_cut hget hcut hs

-- the `j`-th job, from the socket to the result `[9, 9]`; each database has a file 12
def wholeJob (j : ℕ) (req : Request) : List Action :=
  let env : Env := ⟨some 4, true, fun _ _ => [12], some [9, 9], true, []⟩
  [.openSocket req 5, .send j [.moved 3, .moved 99],
    .receive j [.moved 3, .moved 99] (frame req.message) env,
    .respond j [.moved 3, .interrupted, .moved 99],
    .wait j [.moved 1, .moved 1, .moved 99] (frame [0, 9, 9]) []]

def jobOf (db : String) : Request := ⟨ascii db, 3, inputText⟩

def compactions (s : State) : List (Bytes × ClientStage × Option Bytes) :=
  s.jobs.map fun job => (job.req.dbName, job.client,
    (job.served.bind (·.outcome.compaction)).map (·.db))

theorem wait_returns_own_result_one :
    ∃ s, exec (step readInputText) (init false) (wholeJob 0 (jobOf "/a")) = some s ∧
      (∃ job sv, s.jobs[0]? = some job ∧ job.client = .finished .success [] [9, 9] ∧
        OwnResult readInputText job sv [9, 9] ∧
        OwnCompaction readInputText job.req sv.outcome) ∧
      s.closes = [(0, some (.socket 0))] := by
  have hcl : ((exec (step readInputText) (init false) (wholeJob 0 (jobOf "/a"))).map
      fun s => (s.closes, (s.jobs[0]?).map (·.client))) =
        some ([(0, some (.socket 0))], some (.finished .success [] [9, 9])) := by
    decide +kernel
  obtain ⟨s, hs, heq⟩ := Option.map_eq_some_iff.mp hcl
  obtain ⟨hcloses, hclient⟩ := Prod.mk.inj heq
  obtain ⟨job, hget, hdone⟩ := Option.map_eq_some_iff.mp hclient
  have hshort : Meets (step readInputText) ShortResults (init false)
      (wholeJob 0 (jobOf "/a")) := by
    simp [wholeJob, Meets, ShortResults]
  have hone : Meets (step readInputText) (OneDatabase readInputText (ascii "/a")) (init false)
      (wholeJob 0 (jobOf "/a")) := by
    have hfamily : ∀ input csi, readInputText input = some csi →
        csi.columnFamily = kDefaultColumnFamilyName := by
      intro input csi hcsi
      unfold readInputText at hcsi
      split at hcsi
      · rw [← Option.some.inj hcsi]
      · cases hcsi
    have hfits : (jobOf "/a").message.length < 2 ^ 32 := by decide +kernel
    simp only [wholeJob, Meets, OneDatabase, implies_true, and_true, true_and]
    exact ⟨⟨rfl, hfits⟩, fun t _ _ _ job csi _ hcsi => .inl (hfamily _ csi hcsi)⟩
  obtain ⟨sv, hown, hcompaction⟩ :=
    (wait_returns_own_result readInputText false _ s hs hshort).1 0 job [] [9, 9] hget hdone
  exact ⟨s, hs, ⟨job, sv, hget, hdone, hown, hcompaction _ hone⟩, hcloses⟩

/-- A job of `/a` and then one of `/b`: `Wait` returns success for the second one
with the result of a compaction of `/a`. -/
theorem wait_returns_compaction_of_other_database :
    (exec (step readInputText) (init false)
        (wholeJob 0 (jobOf "/a") ++ wholeJob 1 (jobOf "/b"))).map compactions =
      some [(ascii "/a", .finished .success [] [9, 9], some (ascii "/a")),
        (ascii "/b", .finished .success [] [9, 9], some (ascii "/a"))] := by
  decide +kernel

end PnmCompaction.Service.Connections
