import Mathlib.Data.List.Dedup
import Mathlib.Data.List.DropRight
import PnmCompaction.Worker.HandleJob

/-!
# Which column family and which files a job compacts

`DB::OpenAndCompact` (db_impl_secondary.cc:1498-1642) resolves the job's `cf_name`
against the handles it opened; the worker's persistent path hands
`DefaultColumnFamily()` to the same `CompactWithoutInstallation`
(pnm_unit_main.cc:200-202). Both then look the input files up by number, level by
level, in a version of that column family: `OpenAndCompact` in the one it recovers
for the job, the persistent path in the one the secondary has reached. What
`TryCatchUpWithPrimary` returns is not looked at (pnm_unit_main.cc:183), so the
second may be an older one.
-/

namespace PnmCompaction.Worker.ColumnFamilies

open PnmCompaction.Lib.LittleEndian
open PnmCompaction.Ipc.JobMessage

/-- A column family's version: the numbers of its files, level by level. -/
structure ColumnFamily where
  name : Bytes
  levels : List (List ℕ)
  deriving DecidableEq, Repr

def ColumnFamily.files (cf : ColumnFamily) : List ℕ := cf.levels.flatten

/-- The column families of one database. File numbers are drawn from one counter
for the whole database, and the default family cannot be dropped. -/
structure Catalog where
  families : List ColumnFamily
  names : (families.map (·.name)).Nodup
  numbers : (families.flatMap (·.files)).Nodup
  default : kDefaultColumnFamilyName ∈ families.map (·.name)

def Catalog.find (cat : Catalog) (name : Bytes) : Option ColumnFamily :=
  cat.families.find? fun cf => cf.name == name

def Catalog.files (cat : Catalog) (name : Bytes) : List ℕ := ((cat.find name).map (·.files)).getD []

/-- What the two paths see of one database. A file number stays with its column
family in all versions. -/
structure Views where
  recovered : Catalog
  secondary : Catalog
  owner : ∀ name other cf cf', recovered.find name = some cf → secondary.find other = some cf' →
    name ≠ other → ∀ f ∈ cf.files, f ∉ cf'.files

/-- `TryCatchUpWithPrimary` has brought the default family to the version that
`OpenAndCompact` recovers. -/
def Views.CaughtUp (v : Views) : Prop :=
  v.secondary.find kDefaultColumnFamilyName = v.recovered.find kDefaultColumnFamilyName

instance (v : Views) : Decidable v.CaughtUp :=
  inferInstanceAs (Decidable (v.secondary.find _ = v.recovered.find _))

/-! ### Selecting the input files (compaction_picker.cc:452-499) -/

structure CompactionInputFiles where
  level : ℕ
  files : List ℕ
  deriving DecidableEq, Repr

inductive Refusal where
  | emptyInput
  | notFound (numbers : List ℕ)
  | optionsFile
  | noDefault
  | columnFamily (name : Bytes)
  /-- `assert(cfh)`. -/
  | noHandle
  deriving DecidableEq, Repr

-- the files of one level that are in the input set, and what is left of the set
def matchFiles : List ℕ → List ℕ → List ℕ × List ℕ
  | [], set => ([], set)
  | f :: fs, set =>
    if f ∈ set then
      let r := matchFiles fs (set.erase f)
      (f :: r.1, r.2)
    else matchFiles fs set

def matchLevels : List (List ℕ) → List ℕ → List (List ℕ) × List ℕ
  | [], set => ([], set)
  | level :: levels, set =>
    let m := matchFiles level set
    let r := matchLevels levels m.2
    (m.1 :: r.1, r.2)

def getCompactionInputsFromFileNumbers (levels : List (List ℕ)) (inputSet : List ℕ) :
    Except Refusal (List CompactionInputFiles) :=
  if inputSet = [] then .error .emptyInput
  else
    let r := matchLevels levels inputSet
    if r.2 = [] then
      -- from the first level with an input file to the last one
      .ok (((r.1.zipIdx.map fun m => ⟨m.2, m.1⟩).dropWhile (·.files.isEmpty)).rdropWhile
        (·.files.isEmpty))
    else .error (.notFound r.2)

structure Selection where
  columnFamily : Bytes
  inputs : List CompactionInputFiles
  deriving DecidableEq, Repr

/-- The part of `CompactWithoutInstallation` (db_impl_secondary.cc:1331-1417) that
chooses what is compacted. -/
def compactWithoutInstallation (cf : ColumnFamily) (csi : CompactionServiceInput) :
    Except Refusal Selection :=
  (getCompactionInputsFromFileNumbers cf.levels csi.inputFiles.dedup).map fun inputs =>
    ⟨cf.name, inputs⟩

/-! ### The two paths -/

/-- `OpenAsSecondaryImpl`: the handles, in the order of the descriptors. -/
def openAsSecondaryImpl (cat : Catalog) (names : List Bytes) : Except Refusal (List ColumnFamily) :=
  if kDefaultColumnFamilyName ∉ names then .error .noDefault
  else
    match names.find? fun name => (cat.find name).isNone with
    | some name => .error (.columnFamily name)
    | none => .ok (names.filterMap cat.find)

/-- Steps 2, 4, 5, 6 and 7 of `DB::OpenAndCompact`. `optionsFile` gives the column
families that an OPTIONS file describes, if it can be loaded. -/
def openAndCompactSelects (optionsFile : ℕ → Option (List Bytes)) (cat : Catalog)
    (csi : CompactionServiceInput) : Except Refusal Selection :=
  match optionsFile csi.optionsFileNumber with
  | none => .error .optionsFile
  | some all =>
    let names := all.filter fun name =>
      name == csi.columnFamily || name == kDefaultColumnFamilyName
    match openAsSecondaryImpl cat names with
    | .error e => .error e
    | .ok handles =>
      match handles.find? fun cfh => csi.columnFamily == cfh.name with
      | none => .error .noHandle
      | some cfh => compactWithoutInstallation cfh csi

/-- The persistent path (pnm_unit_main.cc:182-202), with `cat` what the secondary
has reached. -/
def persistentSelects (cat : Catalog) (csi : CompactionServiceInput) : Except Refusal Selection :=
  match cat.find kDefaultColumnFamilyName with
  | none => .error .noDefault
  | some cfh => compactWithoutInstallation cfh csi

/-! ### The lookup by number -/

theorem matchFiles_of_disjoint {files set : List ℕ} (h : ∀ f ∈ files, f ∉ set) :
    matchFiles files set = ([], set) := by
  induction files with
  | nil => rfl
  | cons f fs ih =>
    rw [matchFiles, if_neg (h f List.mem_cons_self)]
    exact ih fun g hg => h g (List.mem_cons_of_mem f hg)

theorem matchLevels_left_of_disjoint {levels : List (List ℕ)} {set : List ℕ}
    (h : ∀ f ∈ levels.flatten, f ∉ set) : (matchLevels levels set).2 = set := by
  induction levels with
  | nil => rfl
  | cons level levels ih =>
    rw [List.flatten_cons] at h
    have hlevel : matchFiles level set = ([], set) :=
      matchFiles_of_disjoint fun f hf => h f (List.mem_append_left _ hf)
    rw [matchLevels, hlevel]
    exact ih fun f hf => h f (List.mem_append_right level hf)

theorem mem_matchFiles_left {files set : List ℕ} {f : ℕ} (hset : f ∈ set) (hf : f ∉ files) :
    f ∈ (matchFiles files set).2 := by
  induction files generalizing set with
  | nil => exact hset
  | cons g gs ih =>
    have hne : f ≠ g := fun he => hf (he ▸ List.mem_cons_self)
    have hgs : f ∉ gs := fun hmem => hf (List.mem_cons_of_mem g hmem)
    rw [matchFiles]
    split
    · exact ih ((List.mem_erase_of_ne hne).mpr hset) hgs
    · exact ih hset hgs

theorem mem_matchLevels_left {levels : List (List ℕ)} {set : List ℕ} {f : ℕ} (hset : f ∈ set)
    (hf : f ∉ levels.flatten) : f ∈ (matchLevels levels set).2 := by
  induction levels generalizing set with
  | nil => exact hset
  | cons level levels ih =>
    rw [List.flatten_cons, List.mem_append, not_or] at hf
    exact ih (mem_matchFiles_left hset hf.1) hf.2

/-- A selection is made only if there are input files and the family has them all. -/
theorem compactWithoutInstallation_ok {cf : ColumnFamily} {csi : CompactionServiceInput}
    {sel : Selection} (h : compactWithoutInstallation cf csi = .ok sel) :
    csi.inputFiles ≠ [] ∧ ∀ f ∈ csi.inputFiles, f ∈ cf.files := by
  unfold compactWithoutInstallation getCompactionInputsFromFileNumbers at h
  split at h
  · cases h
  next hne =>
  dsimp only at h
  split at h
  · next hleft =>
    refine ⟨fun hnil => hne (by rw [hnil]; rfl), fun f hf => ?_⟩
    by_contra hnot
    have hmem := mem_matchLevels_left (List.mem_dedup.mpr hf) hnot
    rw [hleft] at hmem
    exact absurd hmem List.not_mem_nil
  · cases h

theorem compactWithoutInstallation_of_disjoint {cf : ColumnFamily} {csi : CompactionServiceInput}
    (hne : csi.inputFiles ≠ []) (h : ∀ f ∈ csi.inputFiles, f ∉ cf.files) :
    compactWithoutInstallation cf csi = .error (.notFound csi.inputFiles.dedup) := by
  have hset : csi.inputFiles.dedup ≠ [] := by
    obtain ⟨f, hf⟩ := List.exists_mem_of_ne_nil _ hne
    exact List.ne_nil_of_mem (List.mem_dedup.mpr hf)
  have hleft : (matchLevels cf.levels csi.inputFiles.dedup).2 = csi.inputFiles.dedup :=
    matchLevels_left_of_disjoint fun f hf hmem => h f (List.mem_dedup.mp hmem) hf
  unfold compactWithoutInstallation getCompactionInputsFromFileNumbers
  dsimp only
  rw [if_neg hset, hleft, if_neg hset]
  rfl

theorem compactWithoutInstallation_of_missing {cf : ColumnFamily} {csi : CompactionServiceInput}
    {f : ℕ} (hf : f ∈ csi.inputFiles) (hnot : f ∉ cf.files) :
    ∃ missing, f ∈ missing ∧ compactWithoutInstallation cf csi = .error (.notFound missing) := by
  have hmem := mem_matchLevels_left (List.mem_dedup.mpr hf) hnot
  refine ⟨_, hmem, ?_⟩
  unfold compactWithoutInstallation getCompactionInputsFromFileNumbers
  dsimp only
  rw [if_neg (List.ne_nil_of_mem (List.mem_dedup.mpr hf)), if_neg (List.ne_nil_of_mem hmem)]
  rfl

/-! ### Column families by name -/

theorem Catalog.find_some {cat : Catalog} {name : Bytes} {cf : ColumnFamily}
    (h : cat.find name = some cf) : cf ∈ cat.families ∧ cf.name = name := by
  refine ⟨List.mem_of_find?_eq_some h, ?_⟩
  exact beq_iff_eq.mp (List.find?_some (p := fun cf : ColumnFamily => cf.name == name) h)

theorem Catalog.find_default (cat : Catalog) :
    ∃ cf, cat.find kDefaultColumnFamilyName = some cf := by
  obtain ⟨cf, hmem, hname⟩ := List.mem_map.mp cat.default
  cases h : cat.find kDefaultColumnFamilyName with
  | some cf' => exact ⟨cf', rfl⟩
  | none => exact absurd hname (by simpa using List.find?_eq_none.mp h cf hmem)

/-- A version whose families have files of another version only. -/
theorem Catalog.owner_of_subset {cat sec : Catalog}
    (h : ∀ cf' ∈ sec.families, ∃ cf ∈ cat.families,
      cf.name = cf'.name ∧ ∀ f ∈ cf'.files, f ∈ cf.files)
    (name other : Bytes) (cf cf' : ColumnFamily) (hcf : cat.find name = some cf)
    (hcf' : sec.find other = some cf') (hne : name ≠ other) : ∀ f ∈ cf.files, f ∉ cf'.files := by
  obtain ⟨hmem, hname⟩ := Catalog.find_some hcf
  obtain ⟨hmem', hname'⟩ := Catalog.find_some hcf'
  obtain ⟨same, hsame, hsamename, hsub⟩ := h cf' hmem'
  have hdiff : cf ≠ same := by
    intro he
    rw [he, hsamename, hname'] at hname
    exact hne hname.symm
  have hpair := (List.nodup_flatMap.mp cat.numbers).2
  have hsymm : Std.Symm (Function.onFun List.Disjoint fun cf : ColumnFamily => cf.files) :=
    ⟨fun _ _ hd => List.Disjoint.symm hd⟩
  have hdisj : List.Disjoint cf.files same.files := hpair.forall hmem hsame hdiff
  exact fun f hf hf' => hdisj hf (hsub f hf')

/-- Where `OpenAndCompact` makes a selection it is in the family the job names. -/
theorem openAndCompactSelects_ok {optionsFile : ℕ → Option (List Bytes)} {cat : Catalog}
    {csi : CompactionServiceInput} {sel : Selection}
    (h : openAndCompactSelects optionsFile cat csi = .ok sel) :
    ∃ cf, cat.find csi.columnFamily = some cf ∧ compactWithoutInstallation cf csi = .ok sel := by
  unfold openAndCompactSelects at h
  split at h
  · cases h
  dsimp only at h
  split at h
  · cases h
  next handles hopen =>
  split at h
  · cases h
  next cfh hfind =>
  refine ⟨cfh, ?_, h⟩
  unfold openAsSecondaryImpl at hopen
  split at hopen
  · cases hopen
  split at hopen
  · cases hopen
  have hname : csi.columnFamily = cfh.name :=
    beq_iff_eq.mp
      (List.find?_some (p := fun cfh : ColumnFamily => csi.columnFamily == cfh.name) hfind)
  have hmem := List.mem_of_find?_eq_some hfind
  rw [← Except.ok.inj hopen] at hmem
  obtain ⟨name, -, hcat⟩ := List.mem_filterMap.mp hmem
  rw [hname, (Catalog.find_some hcat).2]
  exact hcat

/-! ### What `handle_job` replies

The coarser model of `handle_job` asks only whether the column family has the
files; here it is given the files of the catalog. -/

variable {readInput : Bytes → Option CompactionServiceInput}

theorem compactionRuns_of_subset {cat : Catalog} (env : Env) {c : Compaction} {cf : ColumnFamily}
    (henv : ∀ name, env.files c.db name = cat.files name)
    (hcf : cat.find c.columnFamily = some cf) (hsub : ∀ f ∈ c.inputFiles, f ∈ cf.files) :
    compactionRuns env c = env.compacted := by
  unfold compactionRuns
  rw [henv, Catalog.files, hcf, if_pos]
  exact List.all_eq_true.mpr fun f hf => List.contains_iff_mem.mpr (hsub f hf)

theorem compactionRuns_of_not_mem {cat : Catalog} (env : Env) {c : Compaction} {cf : ColumnFamily}
    (henv : ∀ name, env.files c.db name = cat.files name)
    (hcf : cat.find c.columnFamily = some cf) {f : ℕ} (hf : f ∈ c.inputFiles)
    (hnot : f ∉ cf.files) : compactionRuns env c = none := by
  unfold compactionRuns
  rw [henv, Catalog.files, hcf, if_neg]
  intro hall
  exact hnot (List.contains_iff_mem.mp (List.all_eq_true.mp hall f hf))

/-- `env`, with the files of the secondary. -/
def onSecondary (v : Views) (env : Env) : Env :=
  { env with files := fun _ name => v.secondary.files name }

/-- A file of the job is unknown to the default family of the secondary. -/
def Unknown (v : Views) (csi : CompactionServiceInput) : Prop :=
  ∃ f ∈ csi.inputFiles, f ∉ v.secondary.files kDefaultColumnFamilyName

theorem compactOnSecondary_unknown {v : Views} {csi : CompactionServiceInput} {g : Globals}
    {sec : Secondary} {env : Env} {f : Fields} (hread : readInput f.input = some csi)
    (hmiss : Unknown v csi) :
    compactOnSecondary readInput g sec (onSecondary v env) f =
      some ⟨some failureReply, none⟩ := by
  obtain ⟨n, hn, hnot⟩ := hmiss
  obtain ⟨dcf, hdcf⟩ := v.secondary.find_default
  rw [Catalog.files, hdcf] at hnot
  have hruns := compactionRuns_of_not_mem (onSecondary v env)
    (c := ⟨sec.db, kDefaultColumnFamilyName, sec.options, csi.inputFiles, kSecondaryPath⟩)
    (fun _ => rfl) hdcf hn hnot
  simp only [compactOnSecondary, hread, hruns]

/-- With the files found the reply is that of the compaction, once the device is done. -/
theorem compactOnSecondary_known {v : Views} {csi : CompactionServiceInput} {g : Globals}
    {sec : Secondary} {env : Env} {f : Fields} {out : Bytes} {cf : ColumnFamily}
    (hread : readInput f.input = some csi)
    (hcf : v.secondary.find kDefaultColumnFamilyName = some cf)
    (hsub : ∀ n ∈ csi.inputFiles, n ∈ cf.files) (hout : env.compacted = some out)
    (hwrites : env.resultWrites = true)
    (hpoll : g.mmioMapped = false ∨ (pollStatus env.polls).isSome = true) :
    ∃ o, compactOnSecondary readInput g sec (onSecondary v env) f = some o ∧
      o.reply = some (0 :: out) := by
  have hruns := compactionRuns_of_subset (onSecondary v env)
    (c := ⟨sec.db, kDefaultColumnFamilyName, sec.options, csi.inputFiles, kSecondaryPath⟩)
    (fun _ => rfl) hcf hsub
  have hout' : (onSecondary v env).compacted = some out := hout
  have hwrites' : (onSecondary v env).resultWrites = true := hwrites
  simp only [compactOnSecondary, hread, hruns, hout', hwrites', if_true]
  split
  · next hmapped =>
    rcases hpoll with hno | hdone
    · rw [hno] at hmapped
      cases hmapped
    · obtain ⟨st, hst⟩ := Option.isSome_iff_exists.mp hdone
      have hst' : pollStatus (onSecondary v env).polls = some st := hst
      rw [hst']
      exact ⟨_, rfl, rfl⟩
  · exact ⟨_, rfl, rfl⟩

/-- Wherever `OpenAndCompact` makes a selection: on a secondary that has caught up
the persistent path makes the same one exactly when the job names the default
column family, and replies with a success as `OpenAndCompact` does. For any other
family it finds none of the files, and for a file that the secondary has not
heard of yet it finds not all of them; `handle_job` then replies with a failure. -/
theorem persistentSelects_iff_default (optionsFile : ℕ → Option (List Bytes)) (v : Views)
    (csi : CompactionServiceInput) (sel : Selection)
    (h : openAndCompactSelects optionsFile v.recovered csi = .ok sel) :
    (v.CaughtUp →
      (persistentSelects v.secondary csi = .ok sel ↔
        csi.columnFamily = kDefaultColumnFamilyName)) ∧
    (csi.columnFamily ≠ kDefaultColumnFamilyName →
      persistentSelects v.secondary csi = .error (.notFound csi.inputFiles.dedup)) ∧
    (Unknown v csi →
      ∃ missing, persistentSelects v.secondary csi = .error (.notFound missing)) ∧
    ∀ (readInput : Bytes → Option CompactionServiceInput) (g : Globals) (sec : Secondary)
      (env : Env) (f : Fields) (out : Bytes), readInput f.input = some csi → f.dbName = sec.db →
      (∀ name, env.files sec.db name = v.recovered.files name) → env.compacted = some out →
      env.resultWrites = true →
      (openAndCompact readInput env f).reply = some (0 :: out) ∧
      (csi.columnFamily ≠ kDefaultColumnFamilyName ∨ Unknown v csi →
        compactOnSecondary readInput g sec (onSecondary v env) f =
          some ⟨some failureReply, none⟩) ∧
      (csi.columnFamily = kDefaultColumnFamilyName → v.CaughtUp →
        g.mmioMapped = false ∨ (pollStatus env.polls).isSome = true →
        ∃ o, compactOnSecondary readInput g sec (onSecondary v env) f = some o ∧
          o.reply = some (0 :: out)) := by
  obtain ⟨cf, hcf, hsel⟩ := openAndCompactSelects_ok h
  obtain ⟨hne, hsub⟩ := compactWithoutInstallation_ok hsel
  obtain ⟨dcf, hdcf⟩ := v.secondary.find_default
  have hdefault : v.secondary.files kDefaultColumnFamilyName = dcf.files := by
    rw [Catalog.files, hdcf]
    rfl
  have hother : csi.columnFamily ≠ kDefaultColumnFamilyName →
      ∀ f ∈ csi.inputFiles, f ∉ dcf.files := by
    intro hname f hf
    exact v.owner _ _ cf dcf hcf hdcf hname f (hsub f hf)
  have hrefuses : csi.columnFamily ≠ kDefaultColumnFamilyName →
      persistentSelects v.secondary csi = .error (.notFound csi.inputFiles.dedup) := by
    intro hname
    simp only [persistentSelects, hdcf]
    exact compactWithoutInstallation_of_disjoint hne (hother hname)
  -- the family that both paths look at
  have hsame : csi.columnFamily = kDefaultColumnFamilyName → v.CaughtUp →
      v.secondary.find kDefaultColumnFamilyName = some cf := by
    intro hname hup
    rw [hname] at hcf
    exact Eq.trans hup hcf
  refine ⟨fun hup => ⟨fun hfast => ?_, fun hname => ?_⟩, hrefuses, ?_, ?_⟩
  · by_contra hname
    cases hfast.symm.trans (hrefuses hname)
  · simp only [persistentSelects, hsame hname hup]
    exact hsel
  · rintro ⟨n, hn, hnot⟩
    rw [hdefault] at hnot
    obtain ⟨missing, -, hmiss⟩ := compactWithoutInstallation_of_missing hn hnot
    simp only [persistentSelects, hdcf]
    exact ⟨missing, hmiss⟩
  · intro readInput g sec env f out hread hdb henv hout hwrites
    refine ⟨?_, ?_, fun hname hup => ?_⟩
    · have hfiles : ∀ name, env.files f.dbName name = v.recovered.files name := hdb ▸ henv
      have hruns := compactionRuns_of_subset env
        (c := ⟨f.dbName, csi.columnFamily, .file csi.optionsFileNumber, csi.inputFiles,
          kSecondaryPath ++ ascii "/" ++ f.jobId⟩) hfiles hcf hsub
      simp only [openAndCompact, hread, hruns, hout, hwrites, if_true]
    · rintro (hname | hmiss)
      · obtain ⟨n, hn⟩ := List.exists_mem_of_ne_nil _ hne
        refine compactOnSecondary_unknown hread ⟨n, hn, ?_⟩
        rw [hdefault]
        exact hother hname n hn
      · exact compactOnSecondary_unknown hread hmiss
    · exact compactOnSecondary_known hread (hsame hname hup) hsub hout hwrites

-- a database with a second column family, and a job on each
def users : Bytes := ascii "users"

def twoFamilies : Catalog where
  families := [⟨kDefaultColumnFamilyName, [[14], [10, 11]]⟩, ⟨users, [[12, 13], [8, 9]]⟩]
  names := by decide +kernel
  numbers := by decide +kernel
  default := by decide +kernel

def optionsSeven : ℕ → Option (List Bytes) :=
  fun n => if n = 7 then some [kDefaultColumnFamilyName, users] else none

-- the secondary has not heard of the flush that wrote file 14
def beforeFlush : Catalog where
  families := [⟨kDefaultColumnFamilyName, [[], [10, 11]]⟩, ⟨users, [[12, 13], [8, 9]]⟩]
  names := by decide +kernel
  numbers := by decide +kernel
  default := by decide +kernel

def caughtUp : Views := ⟨twoFamilies, twoFamilies, Catalog.owner_of_subset (by decide +kernel)⟩

def stale : Views := ⟨twoFamilies, beforeFlush, Catalog.owner_of_subset (by decide +kernel)⟩

theorem persistentSelects_iff_default_default :
    caughtUp.CaughtUp ∧
    persistentSelects twoFamilies ⟨kDefaultColumnFamilyName, [14, 10], 7⟩ =
      .ok ⟨kDefaultColumnFamilyName, [⟨0, [14]⟩, ⟨1, [10]⟩]⟩ :=
  ⟨rfl, ((persistentSelects_iff_default optionsSeven caughtUp
    ⟨kDefaultColumnFamilyName, [14, 10], 7⟩
    ⟨kDefaultColumnFamilyName, [⟨0, [14]⟩, ⟨1, [10]⟩]⟩ (by decide +kernel)).1 rfl).mpr rfl⟩

-- a default-family job on a secondary that has not caught up
example : openAndCompactSelects optionsSeven stale.recovered
      ⟨kDefaultColumnFamilyName, [14, 10], 7⟩ =
      .ok ⟨kDefaultColumnFamilyName, [⟨0, [14]⟩, ⟨1, [10]⟩]⟩ ∧
    persistentSelects stale.secondary ⟨kDefaultColumnFamilyName, [14, 10], 7⟩ =
      .error (.notFound [14]) := by
  decide +kernel

theorem other_family_not_found :
    openAndCompactSelects optionsSeven caughtUp.recovered ⟨users, [12, 8], 7⟩ =
      .ok ⟨users, [⟨0, [12]⟩, ⟨1, [8]⟩]⟩ ∧
    persistentSelects caughtUp.secondary ⟨users, [12, 8], 7⟩ = .error (.notFound [12, 8]) := by
  decide +kernel

end PnmCompaction.Worker.ColumnFamilies
