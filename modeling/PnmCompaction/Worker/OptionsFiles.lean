import PnmCompaction.Lib.Exec
import PnmCompaction.Worker.HandleJob

/-!
# Which OPTIONS file a job is compacted with

The primary persists OPTIONS files, each with a larger number than the ones
before: it renames the file into place and then, under the mutex, makes its number
the current one (`RenameTempFileToOptionsFile`, db_impl.cc:6391-6440). A compaction
takes the current number when it is prepared (compaction_job.cc:417), and its jobs
carry that number (compaction_service_job.cc:51) whatever is persisted meanwhile:
the mutex is given up in between (db_impl_compaction_flush.cc:4698-4708).

`DB::OpenAndCompact` loads the file with that number
(db_impl_secondary.cc:1524-1530); the worker's persistent path uses what
`LoadLatestOptions` found when the secondary was opened (pnm_unit_main.cc:103-127)
and never loads options again.

Files are referred to by their position in the order in which they were renamed
into place; `Opening` and `Handled` record, outside the program, what the worker
found when it opened the secondary and what it did with each job.
-/

namespace PnmCompaction.Worker.OptionsFiles

open PnmCompaction.Lib.LittleEndian
open PnmCompaction.Lib.Exec
open PnmCompaction.Ipc.JobMessage

/-- A file by its number and its position. -/
structure OptionsFile where
  number : ℕ
  position : ℕ
  deriving DecidableEq, Repr

structure Scheduled where
  fields : Fields
  /-- The file that `options_file_number` names. -/
  named : OptionsFile
  deriving DecidableEq, Repr

structure Opening where
  loaded : Bool
  /-- The position of the latest file in the directory when the secondary was opened. -/
  latest : ℕ
  deriving DecidableEq, Repr

structure Handled where
  job : Scheduled
  used : OptionsUsed
  opening : Option Opening
  deriving DecidableEq, Repr

structure State where
  /-- The files in the directory. -/
  persisted : List ℕ
  /-- `VersionSet::options_file_number_`. -/
  current : OptionsFile
  /-- `CompactionJob::options_file_number_` of each compaction. -/
  prepared : List OptionsFile
  jobs : List Scheduled
  globals : Globals
  opening : Option Opening
  handled : List Handled
  deriving DecidableEq, Repr

-- opening a database persists its first OPTIONS file
def init (first : ℕ) (mmioMapped : Bool) : State :=
  ⟨[first], ⟨first, 0⟩, [], [], .init mmioMapped, none, []⟩

inductive Action where
  | rename (number : ℕ)
  | publish
  | prepare
  | schedule (compaction : ℕ) (fields : Fields)
  | handle (job : ℕ) (env : Env)

section Step

variable (readInput : Bytes → Option CompactionServiceInput)

/-- A job of a prepared compaction; there is one for each subcompaction. -/
def schedule (s : State) (compaction : ℕ) (fields : Fields) : Option State :=
  match readInput fields.input, s.prepared[compaction]? with
  | some csi, some named =>
    if csi.columnFamily = kDefaultColumnFamilyName ∧ csi.optionsFileNumber = named.number then
      some { s with jobs := s.jobs ++ [⟨fields, named⟩] }
    else none
  | _, _ => none

def openingAt (s : State) (env : Env) : Option Opening :=
  match s.globals.secondary with
  | some _ => s.opening
  | none => some ⟨env.latestOptions.isSome, s.persisted.length - 1⟩

-- `handle_job` under the mutex; a job that hangs in the poll loop ends the history
def handle (s : State) (job : Scheduled) (env : Env) : Option State :=
  match ensureSecondary s.globals env job.fields.dbName with
  | none => some s
  | some sec =>
    (compactOnSecondary readInput s.globals sec env job.fields).map fun o =>
      { s with
        globals := { s.globals with secondary := some sec }
        opening := openingAt s env
        handled := (o.compaction.map fun c => ⟨job, c.options, openingAt s env⟩).toList ++
          s.handled }

def step (s : State) : Action → Option State
  | .rename number =>
    if ∀ n ∈ s.persisted, n < number then some { s with persisted := s.persisted ++ [number] }
    else none
  | .publish =>
    -- a file is persisted at a time; it may fail between the two
    s.persisted.getLast?.map fun number =>
      { s with current := ⟨number, s.persisted.length - 1⟩ }
  | .prepare => some { s with prepared := s.prepared ++ [s.current] }
  | .schedule k fields => schedule readInput s k fields
  | .handle j env =>
    match s.jobs[j]? with
    | none => none
    | some job =>
      -- `LoadLatestOptions` finds the latest file or fails
      if env.latestOptions = none ∨ env.latestOptions = s.persisted.getLast? then
        handle readInput s job env
      else none

end Step

variable {readInput : Bytes → Option CompactionServiceInput} {s t : State}

def OptionsFile.In (file : OptionsFile) (persisted : List ℕ) : Prop :=
  persisted[file.position]? = some file.number

/-- What the options of a secondary say of the moment it was opened. -/
def Opened (persisted : List ℕ) (options : OptionsUsed) (o : Opening) : Prop :=
  match options with
  | .file n => o.loaded = true ∧ (OptionsFile.mk n o.latest).In persisted
  | .default => o.loaded = false

def Right (h : Handled) : Prop :=
  ∃ o, h.opening = some o ∧
    (h.used = .file h.job.named.number ↔ o.loaded = true ∧ h.job.named.position = o.latest)

structure Consistent (s : State) : Prop where
  ascending : s.persisted.Pairwise (· < ·)
  nonempty : s.persisted ≠ []
  current : s.current.In s.persisted
  prepared : ∀ file ∈ s.prepared, file.In s.persisted
  jobs : ∀ job ∈ s.jobs, job.named.In s.persisted
  secondary : ∀ sec ∈ s.globals.secondary, ∃ o, s.opening = some o ∧
    Opened s.persisted sec.options o
  handled : ∀ h ∈ s.handled, Right h

theorem consistent_init (first : ℕ) (mmioMapped : Bool) : Consistent (init first mmioMapped) where
  ascending := List.pairwise_singleton _ _
  nonempty := List.cons_ne_nil _ _
  current := rfl
  prepared := by simp [init]
  jobs := by simp [init]
  secondary := by simp [init, Globals.init]
  handled := by simp [init]

theorem OptionsFile.In.rename {file : OptionsFile} {persisted : List ℕ} {number : ℕ}
    (h : file.In persisted) : file.In (persisted ++ [number]) := by
  obtain ⟨hlt, -⟩ := List.getElem?_eq_some_iff.mp h
  rw [OptionsFile.In, List.getElem?_append_left hlt]
  exact h

theorem Opened.rename {persisted : List ℕ} {options : OptionsUsed} {o : Opening} {number : ℕ}
    (h : Opened persisted options o) : Opened (persisted ++ [number]) options o := by
  cases options with
  | file n => exact ⟨h.1, h.2.rename⟩
  | default => exact h

/-- Files are numbered in the order in which they are persisted, so a number
stands for a position. -/
theorem opened_right {persisted : List ℕ} {options : OptionsUsed} {o : Opening}
    {named : OptionsFile} (hasc : persisted.Pairwise (· < ·)) (hnamed : named.In persisted)
    (h : Opened persisted options o) :
    options = .file named.number ↔ o.loaded = true ∧ named.position = o.latest := by
  have hnodup : persisted.Nodup := hasc.imp fun hlt => Nat.ne_of_lt hlt
  cases options with
  | file n =>
    obtain ⟨hloaded, hn⟩ := h
    unfold OptionsFile.In at hn hnamed
    constructor
    · intro heq
      have hnum : n = named.number := OptionsUsed.file.inj heq
      obtain ⟨hlt, -⟩ := List.getElem?_eq_some_iff.mp hnamed
      rw [hnum, ← hnamed] at hn
      exact ⟨hloaded, (List.getElem?_inj hlt hnodup).mp hn.symm⟩
    · intro hsame
      rw [← hsame.2, hnamed] at hn
      rw [Option.some.inj hn]
  | default =>
    constructor
    · intro heq
      cases heq
    · intro hsame
      exact absurd (hsame.1.symm.trans h) (by decide)

/-! ### One step -/

theorem ensureSecondary_options {g : Globals} {env : Env} {db : Bytes} {sec : Secondary}
    (h : ensureSecondary g env db = some sec) :
    g.secondary = some sec ∨
      (g.secondary = none ∧ sec.options = (env.latestOptions.map .file).getD .default) := by
  unfold ensureSecondary at h
  split at h
  · next hsec => exact .inl (hsec.trans h)
  · next hsec =>
    dsimp only at h
    split at h
    · rw [← Option.some.inj h]
      refine .inr ⟨hsec, ?_⟩
      cases env.latestOptions <;> rfl
    · cases h

theorem compactOnSecondary_options {g : Globals} {sec : Secondary} {env : Env} {f : Fields}
    {o : Outcome} (h : compactOnSecondary readInput g sec env f = some o) :
    ∀ c ∈ o.compaction, c.options = sec.options := by
  intro c hc
  unfold compactOnSecondary at h
  split at h
  · rw [← Option.some.inj h] at hc
    cases hc
  dsimp only at h
  split at h
  · rw [← Option.some.inj h] at hc
    cases hc
  split at h
  · split at h
    · split at h
      · cases h
      · rw [← Option.some.inj h] at hc
        rw [← Option.some.inj hc]
    · rw [← Option.some.inj h] at hc
      rw [← Option.some.inj hc]
  · rw [← Option.some.inj h] at hc
    cases hc

theorem Consistent.latest (h : Consistent s) :
    ∃ number, s.persisted.getLast? = some number ∧
      (OptionsFile.mk number (s.persisted.length - 1)).In s.persisted := by
  refine ⟨s.persisted.getLast h.nonempty, List.getLast?_eq_some_getLast h.nonempty, ?_⟩
  rw [OptionsFile.In, ← List.getLast?_eq_getElem?, List.getLast?_eq_some_getLast h.nonempty]

theorem Consistent.rename (h : Consistent s) {number : ℕ} (hnew : ∀ n ∈ s.persisted, n < number) :
    Consistent { s with persisted := s.persisted ++ [number] } where
  ascending := by
    refine List.pairwise_append.mpr ⟨h.ascending, List.pairwise_singleton _ _, ?_⟩
    intro n hn m hm
    rw [List.mem_singleton.mp hm]
    exact hnew n hn
  nonempty := List.append_ne_nil_of_left_ne_nil h.nonempty _
  current := h.current.rename
  prepared file hfile := (h.prepared file hfile).rename
  jobs job hjob := (h.jobs job hjob).rename
  secondary sec hsec := by
    obtain ⟨o, ho, hopened⟩ := h.secondary sec hsec
    exact ⟨o, ho, hopened.rename⟩
  handled := h.handled

theorem Consistent.publish (h : Consistent s) {number : ℕ}
    (hlast : s.persisted.getLast? = some number) :
    Consistent { s with current := ⟨number, s.persisted.length - 1⟩ } := by
  obtain ⟨number', hlast', hin⟩ := h.latest
  obtain rfl := Option.some.inj (hlast'.symm.trans hlast)
  exact { h with current := hin }

theorem Consistent.prepare (h : Consistent s) :
    Consistent { s with prepared := s.prepared ++ [s.current] } := by
  refine { h with prepared := fun file hfile => ?_ }
  rcases List.mem_append.mp hfile with hold | hnew
  · exact h.prepared file hold
  · rw [List.mem_singleton.mp hnew]
    exact h.current

theorem Consistent.schedule (h : Consistent s) {k : ℕ} {fields : Fields}
    (hs : schedule readInput s k fields = some t) : Consistent t := by
  unfold OptionsFiles.schedule at hs
  split at hs
  · next csi named _ hnamed =>
    split at hs
    · rw [← Option.some.inj hs]
      refine { h with jobs := fun job hjob => ?_ }
      rcases List.mem_append.mp hjob with hold | hnew
      · exact h.jobs job hold
      · rw [List.mem_singleton.mp hnew]
        exact h.prepared named (List.mem_of_getElem? hnamed)
    · cases hs
  · cases hs

/-- The secondary of this job, opened by it or before, and the record of its opening. -/
theorem Consistent.opened (h : Consistent s) {env : Env} {db : Bytes} {sec : Secondary}
    (henv : env.latestOptions = none ∨ env.latestOptions = s.persisted.getLast?)
    (hsec : ensureSecondary s.globals env db = some sec) :
    ∃ o, openingAt s env = some o ∧ Opened s.persisted sec.options o := by
  obtain ⟨number, hlast, hget⟩ := h.latest
  unfold openingAt
  rcases ensureSecondary_options hsec with hopen | ⟨hclosed, hoptions⟩
  · rw [hopen]
    exact h.secondary sec hopen
  · rw [hclosed, hoptions]
    refine ⟨_, rfl, ?_⟩
    rcases henv with hnone | hsome
    · rw [hnone]
      exact rfl
    · rw [hsome, hlast]
      exact ⟨rfl, hget⟩

theorem Consistent.handle (h : Consistent s) {job : Scheduled} {env : Env} (hjob : job ∈ s.jobs)
    (henv : env.latestOptions = none ∨ env.latestOptions = s.persisted.getLast?)
    (hs : handle readInput s job env = some t) : Consistent t := by
  unfold OptionsFiles.handle at hs
  split at hs
  · rw [← Option.some.inj hs]
    exact h
  next sec hsec =>
  obtain ⟨out, hout, rfl⟩ := Option.map_eq_some_iff.mp hs
  obtain ⟨o, ho, hopened⟩ := h.opened henv hsec
  refine { h with secondary := fun sec' hsec' => ?_, handled := fun r hr => ?_ }
  · rw [← Option.some.inj hsec']
    exact ⟨o, ho, hopened⟩
  · rcases List.mem_append.mp hr with hnew | hold
    · obtain ⟨c, hc, rfl⟩ := Option.map_eq_some_iff.mp (Option.mem_toList.mp hnew)
      refine ⟨o, ho, ?_⟩
      dsimp only
      rw [compactOnSecondary_options hout c hc]
      exact opened_right h.ascending (h.jobs job hjob) hopened
    · exact h.handled r hold

theorem Consistent.step (h : Consistent s) {a : Action} (hs : step readInput s a = some t) :
    Consistent t := by
  cases a with
  | rename number =>
    simp only [OptionsFiles.step] at hs
    split at hs
    · next hnew =>
      rw [← Option.some.inj hs]
      exact h.rename hnew
    · cases hs
  | publish =>
    obtain ⟨number, hlast, rfl⟩ := Option.map_eq_some_iff.mp hs
    exact h.publish hlast
  | prepare =>
    rw [← Option.some.inj hs]
    exact h.prepare
  | schedule k fields => exact h.schedule hs
  | handle j env =>
    simp only [OptionsFiles.step] at hs
    split at hs
    · cases hs
    next job hget =>
    split at hs
    · next henv => exact h.handle (List.mem_of_getElem? hget) henv hs
    · cases hs

/-- In every history, a job handled on the persistent path is compacted with the
OPTIONS file it names exactly when that file could be loaded as the latest one
when the secondary was opened: no file came into place between the one that was
current when the compaction was prepared and the opening, in either order. -/
theorem persistent_options_iff (readInput : Bytes → Option CompactionServiceInput) (first : ℕ)
    (mmioMapped : Bool) (as : List Action) (s : State)
    (hr : exec (step readInput) (init first mmioMapped) as = some s) :
    ∀ h ∈ s.handled, ∃ o, h.opening = some o ∧
      (h.used = .file h.job.named.number ↔
        o.loaded = true ∧ h.job.named.position = o.latest) := by
  have hc : Consistent s :=
    exec_invariant (fun _ _ _ hi hs => hi.step hs) (consistent_init first mmioMapped) hr
  exact hc.handled

-- an input that consists of its options file number
def readNumber (input : Bytes) : Option CompactionServiceInput :=
  input.head?.map fun number => ⟨kDefaultColumnFamilyName, [12], number.val⟩

def jobNaming (number : Byte) : Fields := ⟨ascii "/db", ascii "3", [number]⟩

def finding (number : ℕ) : Env := ⟨some number, true, fun _ _ => [12], some [9], true, []⟩

def firstJob : List Action := [.prepare, .schedule 0 (jobNaming 5), .handle 0 (finding 5)]

def firstHandled : State := (exec (step readNumber) (init 5 false) firstJob).getD (init 5 false)

theorem persistent_options_iff_first :
    ∃ h ∈ firstHandled.handled, h.job.named.number = 5 ∧ h.used = .file h.job.named.number := by
  have hall := persistent_options_iff readNumber 5 false firstJob firstHandled (by decide +kernel)
  have hmem : (⟨⟨jobNaming 5, ⟨5, 0⟩⟩, .file 5, some ⟨true, 0⟩⟩ : Handled) ∈
      firstHandled.handled := by
    decide +kernel
  obtain ⟨o, ho, hiff⟩ := hall _ hmem
  obtain rfl := Option.some.inj ho
  exact ⟨_, hmem, rfl, hiff.mpr ⟨rfl, rfl⟩⟩

def used (s : State) : List (ℕ × OptionsUsed) := s.handled.map fun h => (h.job.named.number, h.used)

-- a file persisted between Prepare and Schedule
example : (exec (step readNumber) (init 5 false)
    [.prepare, .rename 9, .publish, .schedule 0 (jobNaming 5), .handle 0 (finding 9)]).map used =
      some [(5, .file 9)] := by
  decide +kernel

/-- The primary persists OPTIONS file 9 after the first job; the second job names
it and is compacted with file 5. -/
theorem second_job_compacted_with_stale_options :
    (exec (step readNumber) (init 5 false)
      (firstJob ++ [.rename 9, .publish, .prepare, .schedule 1 (jobNaming 9),
        .handle 1 (finding 9)])).map used =
      some [(9, .file 5), (5, .file 5)] := by
  decide +kernel

end PnmCompaction.Worker.OptionsFiles
