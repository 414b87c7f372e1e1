import PnmCompaction.Worker.HandleJob

/-!
# Which database a job is compacted on

The worker opens one secondary, on the database of the first job that gets that
far, and keeps it. A success reply therefore comes from the job's own database
in every history exactly when no request follows one of another database.
-/

namespace PnmCompaction.Worker

open PnmCompaction.Lib.LittleEndian
open PnmCompaction.Ipc.JobMessage

variable {readInput : Bytes → Option CompactionServiceInput}

/-! ### Histories of the process -/

/-- The jobs of one worker process, each with its request; the process stands
still behind a job that hangs. -/
def handleJobs (readInput : Bytes → Option CompactionServiceInput) :
    Globals → List (Option Bytes × Env) → List (Option Bytes × Outcome)
  | _, [] => []
  | g, (msg, env) :: jobs =>
    match handleJob readInput g msg env with
    | none => []
    | some (g', o) => (msg, o) :: handleJobs readInput g' jobs

def request (msg : Option Bytes) : Option Fields := msg.bind parseJob

/-- A success reply comes from a compaction of the request's files in the
request's database. -/
def RightDatabase (readInput : Bytes → Option CompactionServiceInput)
    (job : Option Bytes × Outcome) : Prop :=
  ∀ out, job.2.reply = some (0 :: out) → ∃ f csi c, request job.1 = some f ∧
    readInput f.input = some csi ∧ job.2.compaction = some c ∧ c.db = f.dbName ∧
    c.inputFiles = csi.inputFiles

/-- `later` can be compacted and names the database of `earlier`. -/
def SameDatabase (readInput : Bytes → Option CompactionServiceInput)
    (earlier later : Option Bytes) : Prop :=
  ∀ f f' csi, request earlier = some f → request later = some f' →
    readInput f'.input = some csi → f.dbName = f'.dbName

/-- The secondary can be used for every request that may still come. -/
def Serves (readInput : Bytes → Option CompactionServiceInput) (g : Globals)
    (msgs : List (Option Bytes)) : Prop :=
  ∀ sec, g.secondary = some sec → ∀ msg ∈ msgs, ∀ f csi, request msg = some f →
    readInput f.input = some csi → sec.db = f.dbName

theorem CompactsOn.rightDatabase {env : Env} {o : Outcome} {db : Bytes} {f : Fields}
    {msg : Option Bytes} (h : CompactsOn readInput env o db f) (hf : request msg = some f)
    (hdb : ∀ csi, readInput f.input = some csi → db = f.dbName) :
    RightDatabase readInput (msg, o) := by
  intro out hout
  obtain ⟨csi, c, hc, hcs⟩ := h.success hout
  exact ⟨f, csi, c, hf, hcs.input, hc, hcs.database.trans (hdb csi hcs.input), hcs.files⟩

theorem handleJobs_right {g : Globals} {jobs : List (Option Bytes × Env)}
    (hpair : (jobs.map Prod.fst).Pairwise (SameDatabase readInput))
    (hserves : Serves readInput g (jobs.map Prod.fst)) :
    ∀ job ∈ handleJobs readInput g jobs, RightDatabase readInput job := by
  induction jobs generalizing g with
  | nil =>
    intro job hjob
    cases hjob
  | cons j jobs ih =>
    obtain ⟨msg, env⟩ := j
    rw [List.map_cons, List.pairwise_cons] at hpair
    have hkeep : Serves readInput g (jobs.map Prod.fst) :=
      fun sec hsec m hm => hserves sec hsec m (List.mem_cons_of_mem _ hm)
    rw [handleJobs]
    cases h : handleJob readInput g msg env with
    | none =>
      intro job hjob
      cases hjob
    | some r =>
      obtain ⟨g', o⟩ := r
      -- the reply is right and the secondary left behind serves the later requests
      have hstep : RightDatabase readInput (msg, o) ∧ Serves readInput g' (jobs.map Prod.fst) := by
        rcases handleJob_cases h with ⟨rfl, rfl | rfl⟩ | ⟨buf, f, rfl, hf, rfl, hc⟩ |
          ⟨buf, f, sec, rfl, hf, rfl, hsec, hc⟩
        · exact ⟨fun out hout => absurd hout (by simp), hkeep⟩
        · exact ⟨fun out hout => absurd hout (failureReply_ne out), hkeep⟩
        · exact ⟨hc.rightDatabase hf fun _ _ => rfl, hkeep⟩
        · rcases hsec with hsec | ⟨-, hdb⟩
          · refine ⟨hc.rightDatabase hf fun csi hcsi => ?_, fun s hs m hm => ?_⟩
            · exact hserves sec hsec (some buf) (List.mem_cons_self ..) f csi hf hcsi
            · have hs' : s = sec := (Option.some.inj hs).symm
              rw [hs']
              exact hkeep sec hsec m hm
          · refine ⟨hc.rightDatabase hf fun _ _ => hdb, fun s hs m hm f' csi hf' hcsi => ?_⟩
            have hs' : s = sec := (Option.some.inj hs).symm
            rw [hs', hdb]
            exact hpair.1 m hm f f' csi hf hf' hcsi
      intro job hjob
      rcases List.mem_cons.mp hjob with rfl | hmem
      · exact hstep.1
      · exact ih hpair.2 hstep.2 job hmem

/-! ### Histories that go wrong

Two environments are enough: one in which nothing succeeds, so that no secondary
is opened, and one in which everything does. -/

def refusing : Env := ⟨none, false, fun _ _ => [], none, false, []⟩

/-- Every database holds files with the numbers the request asks for. -/
def willing (readInput : Bytes → Option CompactionServiceInput) (msg : Option Bytes) : Env where
  latestOptions := some 0
  secondaryOpens := true
  files _ _ := (((request msg).bind fun f => readInput f.input).map (·.inputFiles)).getD []
  compacted := some []
  resultWrites := true
  polls := [Device.statusDone]

variable (readInput) in
theorem handleJob_refusing (g : Globals) (hg : g.secondary = none) (msg : Option Bytes) :
    ∃ o, handleJob readInput g msg refusing = some (g, o) := by
  unfold handleJob
  split
  · exact ⟨_, rfl⟩
  · split
    · exact ⟨_, rfl⟩
    · next f _ =>
      have hsec : ensureSecondary g refusing f.dbName = none := by
        simp [ensureSecondary, hg, refusing]
      rw [hsec]
      exact ⟨_, rfl⟩

variable (readInput) in
theorem ensureSecondary_willing (g : Globals) (msg : Option Bytes) (db : Bytes) :
    ∃ sec, ensureSecondary g (willing readInput msg) db = some sec ∧
      (∀ s, g.secondary = some s → sec = s) ∧ (g.secondary = none → sec.db = db) := by
  cases hg : g.secondary with
  | some s =>
    refine ⟨s, by simp only [ensureSecondary, hg], fun t ht => Option.some.inj ht, fun h => ?_⟩
    cases h
  | none =>
    refine ⟨⟨db, .file 0⟩, by simp [ensureSecondary, hg, willing], fun s h => ?_, fun _ => rfl⟩
    cases h

variable (readInput) in
theorem compactOnSecondary_willing (g : Globals) (sec : Secondary) {msg : Option Bytes}
    {f : Fields} (hf : request msg = some f) :
    ∃ o, compactOnSecondary readInput g sec (willing readInput msg) f = some o ∧
      ∀ csi, readInput f.input = some csi →
        o.reply = some [0] ∧ ∃ c, o.compaction = some c ∧ c.db = sec.db := by
  unfold compactOnSecondary
  cases hcsi : readInput f.input with
  | none => exact ⟨_, rfl, fun _ h => by cases h⟩
  | some csi =>
    have hruns : compactionRuns (willing readInput msg)
        ⟨sec.db, kDefaultColumnFamilyName, sec.options, csi.inputFiles, kSecondaryPath⟩ =
          some [] := by
      simp [compactionRuns, willing, hf, hcsi]
    have hpoll : pollStatus (willing readInput msg).polls = some Device.statusDone := by rfl
    dsimp only
    rw [hruns]
    dsimp only
    rw [if_pos (by rfl : (willing readInput msg).resultWrites = true), hpoll]
    dsimp only
    rw [ite_self]
    exact ⟨_, rfl, fun _ _ => ⟨rfl, _, rfl, rfl⟩⟩

variable (readInput) in
theorem handleJob_willing (g : Globals) (msg : Option Bytes) :
    ∃ g' o, handleJob readInput g msg (willing readInput msg) = some (g', o) ∧
      (∀ sec, g.secondary = some sec → g'.secondary = some sec) ∧
      ∀ f, request msg = some f → ∃ sec, g'.secondary = some sec ∧
        (g.secondary = none → sec.db = f.dbName) ∧
        ∀ csi, readInput f.input = some csi →
          o.reply = some [0] ∧ ∃ c, o.compaction = some c ∧ c.db = sec.db := by
  unfold handleJob
  cases msg with
  | none => exact ⟨g, _, rfl, fun _ h => h, fun f hf => by cases hf⟩
  | some buf =>
    dsimp only
    cases hp : parseJob buf with
    | none =>
      refine ⟨g, _, rfl, fun _ h => h, fun f hf => ?_⟩
      rw [request, Option.bind_some, hp] at hf
      cases hf
    | some f =>
      have hf : request (some buf) = some f := hp
      obtain ⟨sec, hsec, hkeep, hopen⟩ :=
        ensureSecondary_willing readInput g (some buf) f.dbName
      obtain ⟨o, ho, hreply⟩ := compactOnSecondary_willing readInput g sec hf
      dsimp only
      rw [hsec]
      dsimp only
      rw [ho]
      refine ⟨_, o, rfl, fun s hs => ?_, fun f' hf' => ?_⟩
      · rw [hkeep s hs]
      · have heq : f' = f := Option.some.inj (hf'.symm.trans hf)
        rw [heq]
        exact ⟨sec, rfl, hopen, hreply⟩

def willingJobs (readInput : Bytes → Option CompactionServiceInput)
    (msgs : List (Option Bytes)) : List (Option Bytes × Env) :=
  msgs.map fun msg => (msg, willing readInput msg)

theorem willingJobs_fst (msgs : List (Option Bytes)) :
    (willingJobs readInput msgs).map Prod.fst = msgs := by
  simp only [willingJobs, List.map_map]
  exact List.map_id msgs

/-- With the secondary open on another database the first request that reaches
it gets a success reply from that database. -/
theorem exists_wrong_of_open {g : Globals} {sec : Secondary} (hg : g.secondary = some sec)
    {msgs : List (Option Bytes)} {msg : Option Bytes} (hmem : msg ∈ msgs) {f : Fields}
    {csi : CompactionServiceInput} (hf : request msg = some f)
    (hcsi : readInput f.input = some csi) (hne : sec.db ≠ f.dbName) :
    ∃ job ∈ handleJobs readInput g (willingJobs readInput msgs),
      ¬ RightDatabase readInput job := by
  induction msgs generalizing g with
  | nil => cases hmem
  | cons m msgs ih =>
    obtain ⟨g', o, hstep, hkeep, hans⟩ := handleJob_willing readInput g m
    have hjobs : handleJobs readInput g (willingJobs readInput (m :: msgs)) =
        (m, o) :: handleJobs readInput g' (willingJobs readInput msgs) := by
      simp only [willingJobs, List.map_cons, handleJobs, hstep]
    rw [hjobs]
    rcases List.mem_cons.mp hmem with rfl | hmem
    · refine ⟨_, List.mem_cons_self .., fun hright => ?_⟩
      obtain ⟨sec', hsec', -, hreply⟩ := hans f hf
      have hsame : sec' = sec := Option.some.inj (hsec'.symm.trans (hkeep sec hg))
      obtain ⟨hout, c, hc, hcdb⟩ := hreply csi hcsi
      obtain ⟨f1, -, c1, hf1, -, hc1, hdb1, -⟩ := hright [] hout
      have hff : f1 = f := Option.some.inj (hf1.symm.trans hf)
      have hcc : c1 = c := Option.some.inj (hc1.symm.trans hc)
      exact hne (by rw [← hsame, ← hcdb, ← hcc, hdb1, hff])
    · obtain ⟨job, hjob, hbad⟩ := ih (hkeep sec hg) hmem
      exact ⟨job, List.mem_cons_of_mem _ hjob, hbad⟩

theorem exists_wrong {g : Globals} (hg : g.secondary = none) {msgs : List (Option Bytes)}
    (h : ¬ msgs.Pairwise (SameDatabase readInput)) :
    ∃ jobs : List (Option Bytes × Env), jobs.map Prod.fst = msgs ∧
      ∃ job ∈ handleJobs readInput g jobs, ¬ RightDatabase readInput job := by
  induction msgs with
  | nil => exact absurd List.Pairwise.nil h
  | cons m msgs ih =>
    by_cases hrest : msgs.Pairwise (SameDatabase readInput)
    · -- the first request clashes with a later one: let it open the secondary
      have hclash : ∃ m' ∈ msgs, ¬ SameDatabase readInput m m' := by
        by_contra hno
        refine h (List.pairwise_cons.mpr ⟨fun m' hm' => ?_, hrest⟩)
        by_contra hbad
        exact hno ⟨m', hm', hbad⟩
      obtain ⟨m', hm', hbad⟩ := hclash
      simp only [SameDatabase, not_forall] at hbad
      obtain ⟨f, f', csi, hf, hf', hcsi, hne⟩ := hbad
      obtain ⟨g', o, hstep, -, hans⟩ := handleJob_willing readInput g m
      obtain ⟨sec, hsec, hopen, -⟩ := hans f hf
      rw [← hopen hg] at hne
      obtain ⟨job, hjob, hwrong⟩ := exists_wrong_of_open hsec hm' hf' hcsi hne
      refine ⟨willingJobs readInput (m :: msgs), willingJobs_fst _, job, ?_, hwrong⟩
      simp only [willingJobs, List.map_cons, handleJobs, hstep]
      exact List.mem_cons_of_mem _ hjob
    · -- the clash is further on: the first request opens nothing
      obtain ⟨jobs, hfst, job, hjob, hwrong⟩ := ih hrest
      obtain ⟨o, hstep⟩ := handleJob_refusing readInput g hg m
      refine ⟨(m, refusing) :: jobs, by rw [List.map_cons, hfst], job, ?_, hwrong⟩
      simp only [handleJobs, hstep]
      exact List.mem_cons_of_mem _ hjob

/-- Every success reply comes from the job's own database, whatever RocksDB and
the device answer, exactly when no request that can be compacted comes after a
request of another database. -/
theorem rightDatabase_iff_sameDatabase (readInput : Bytes → Option CompactionServiceInput)
    (mmioMapped : Bool) (msgs : List (Option Bytes)) :
    (∀ jobs : List (Option Bytes × Env), jobs.map Prod.fst = msgs →
      ∀ job ∈ handleJobs readInput (.init mmioMapped) jobs, RightDatabase readInput job) ↔
    msgs.Pairwise (SameDatabase readInput) := by
  constructor
  · intro h
    by_contra hpair
    obtain ⟨jobs, hfst, job, hjob, hwrong⟩ :=
      exists_wrong (g := .init mmioMapped) rfl hpair
    exact hwrong (h jobs hfst job hjob)
  · intro hpair jobs hfst
    rw [← hfst] at hpair
    refine handleJobs_right hpair fun sec hsec => ?_
    cases hsec

/- Two databases, each with a file number 12; the second job's reply reports
success for a compaction of the first database's file. -/
def inputText : Bytes := [1, 0, 0, 0, 9]

def readInputText (input : Bytes) : Option CompactionServiceInput :=
  if input = inputText then some ⟨kDefaultColumnFamilyName, [12], 4⟩ else none

def twoDatabases : List (Option Bytes × Env) :=
  let env : Env := ⟨some 4, true, fun _ _ => [12], some [9], true, [Device.statusDone]⟩
  [(some (message (ascii "/db1") (ascii "3") inputText), env),
    (some (message (ascii "/db2") (ascii "4") inputText), env)]

theorem second_database_compacted_on_first :
    (handleJobs readInputText (.init true)
        twoDatabases).map (fun job => ((request job.1).map (·.dbName), job.2.reply,
          job.2.compaction.map (fun c => (c.db, c.inputFiles)))) =
      [(some (ascii "/db1"), some [0, 9], some (ascii "/db1", [12])),
        (some (ascii "/db2"), some [0, 9], some (ascii "/db1", [12]))] := by
  decide +kernel

end PnmCompaction.Worker
