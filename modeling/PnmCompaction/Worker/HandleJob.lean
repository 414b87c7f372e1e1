import PnmCompaction.Ipc.JobMessage
import PnmCompaction.Device.Compactor

/-!
# One job in the worker process (`rocksdb/tools/pnm_unit_main.cc`)

`handle_job` from the received frame to the reply. RocksDB is seen through what
its calls return: `Env` holds, for one job, the outcome of each call and the
files the job would find. What the worker decides from them, which database and
column family it compacts and what it replies, is the code's own.

Everything from `ensure_secondary` to the reply runs under `g_compact_mutex`, so
a history of the process is the list of its jobs in the order in which they took
the mutex.
-/

namespace PnmCompaction.Worker

open PnmCompaction.Lib.LittleEndian
open PnmCompaction.Ipc.Frame
open PnmCompaction.Ipc.JobMessage

def ascii (s : String) : Bytes := s.toList.map fun c => Fin.ofNat 256 c.toNat

def kDefaultColumnFamilyName : Bytes := ascii "default"

def kSecondaryPath : Bytes := ascii "/tmp/pnm_secondary"

/-- The fields of `CompactionServiceInput` that decide what is compacted. -/
structure CompactionServiceInput where
  columnFamily : Bytes
  inputFiles : List ℕ
  optionsFileNumber : ℕ
  deriving DecidableEq, Repr

/-- The options a database was opened with: those of one OPTIONS file, or
`Options()` when none could be loaded. -/
inductive OptionsUsed where
  | file (number : ℕ)
  | default
  deriving DecidableEq, Repr

/-- `g_secondary_db`: the database it was opened on and the options of that moment. -/
structure Secondary where
  db : Bytes
  options : OptionsUsed
  deriving DecidableEq, Repr

structure Globals where
  secondary : Option Secondary
  mmioMapped : Bool
  deriving DecidableEq, Repr

structure Compaction where
  db : Bytes
  columnFamily : Bytes
  options : OptionsUsed
  inputFiles : List ℕ
  outputDir : Bytes
  deriving DecidableEq, Repr

structure Env where
  /-- `LoadLatestOptions`: the number of the OPTIONS file, if it could be loaded. -/
  latestOptions : Option ℕ
  /-- `OpenAsSecondary` returned OK. -/
  secondaryOpens : Bool
  /-- The files of a column family in the version the compaction looks at. -/
  files : Bytes → Bytes → List ℕ
  /-- The compaction, once its inputs are found: the unserialized result's text
  as `CompactionServiceResult::Write` would put it. -/
  compacted : Option Bytes
  resultWrites : Bool
  /-- The successive values of `STATUS`. -/
  polls : List ℕ

def Globals.init (mmioMapped : Bool) : Globals := ⟨none, mmioMapped⟩

structure Outcome where
  reply : Option Bytes
  compaction : Option Compaction
  deriving DecidableEq, Repr

def failureReply : Bytes := [1]

section HandleJob

-- `CompactionServiceInput::Read`
variable (readInput : Bytes → Option CompactionServiceInput)

/-- `ensure_secondary` (pnm_unit_main.cc:96-133): a secondary that is open is
kept, whatever database it was opened on. -/
def ensureSecondary (g : Globals) (env : Env) (dbPath : Bytes) : Option Secondary :=
  match g.secondary with
  | some sec => some sec
  | none =>
    let options :=
      match env.latestOptions with
      | some n => .file n
      | none => .default
    if env.secondaryOpens then some ⟨dbPath, options⟩ else none

-- the input files are looked up by number in the version of `c`'s column family
def compactionRuns (env : Env) (c : Compaction) : Option Bytes :=
  if c.inputFiles.all (fun f => (env.files c.db c.columnFamily).contains f) then env.compacted
  else none

/-- The fallback through `DB::OpenAndCompact` (pnm_unit_main.cc:163-180). The
call overrides the table factory with a null one (db_impl_secondary.cc:1583),
which ends the process once the options have been loaded; here the call also
returns what it would with a table factory. -/
def openAndCompact (env : Env) (f : Fields) : Outcome :=
  match readInput f.input with
  | none => ⟨some failureReply, none⟩
  | some csi =>
    let c : Compaction :=
      { db := f.dbName
        columnFamily := csi.columnFamily
        options := .file csi.optionsFileNumber
        inputFiles := csi.inputFiles
        outputDir := kSecondaryPath ++ ascii "/" ++ f.jobId }
    match compactionRuns env c with
    | none => ⟨some failureReply, none⟩
    | some output =>
      if env.resultWrites then ⟨some (0 :: output), some c⟩ else ⟨some failureReply, none⟩

/-- The loop on `STATUS` (pnm_unit_main.cc:245-253); `none`: still polling. -/
def pollStatus : List ℕ → Option ℕ
  | [] => none
  | st :: rest =>
    if st &&& Device.statusDone ≠ 0 ∨ st &&& Device.statusError ≠ 0 then some st
    else pollStatus rest

/-- The path over the persistent secondary `sec` (pnm_unit_main.cc:182-261). -/
def compactOnSecondary (g : Globals) (sec : Secondary) (env : Env) (f : Fields) :
    Option Outcome :=
  -- the result of TryCatchUpWithPrimary is not looked at
  match readInput f.input with
  | none => some ⟨some failureReply, none⟩
  | some csi =>
    let c : Compaction :=
      { db := sec.db
        columnFamily := kDefaultColumnFamilyName
        options := sec.options
        inputFiles := csi.inputFiles
        outputDir := kSecondaryPath }
    match compactionRuns env c with
    | none => some ⟨some failureReply, none⟩
    | some output =>
      if env.resultWrites then
        if g.mmioMapped then
          match pollStatus env.polls with
          | none => none
          | some _ => some ⟨some (0 :: output), some c⟩
        else some ⟨some (0 :: output), some c⟩
      else some ⟨some failureReply, none⟩

/-- `handle_job` (pnm_unit_main.cc:136-261) on the frame it received; `none`: it
hangs in the poll loop, holding the mutex. -/
def handleJob (g : Globals) (msg : Option Bytes) (env : Env) : Option (Globals × Outcome) :=
  match msg with
  | none => some (g, ⟨none, none⟩)
  | some buf =>
    match parseJob buf with
    | none => some (g, ⟨some failureReply, none⟩)
    | some f =>
      match ensureSecondary g env f.dbName with
      | none => some (g, openAndCompact readInput env f)
      | some sec =>
        (compactOnSecondary readInput g sec env f).map fun o =>
          ({ g with secondary := some sec }, o)

end HandleJob

/-! ### What one job can do -/

variable {readInput : Bytes → Option CompactionServiceInput}

theorem ensureSecondary_cases {g : Globals} {env : Env} {db : Bytes} {sec : Secondary}
    (h : ensureSecondary g env db = some sec) :
    g.secondary = some sec ∨ (g.secondary = none ∧ sec.db = db) := by
  unfold ensureSecondary at h
  split at h
  · next s hs =>
    exact .inl (hs.trans h)
  · next hs =>
    dsimp only at h
    split at h
    · have heq := Option.some.inj h
      exact .inr ⟨hs, by rw [← heq]⟩
    · cases h

/-- A compaction, in `db`, of the input files named in the request; its column
family is the one of the request or the default one, and holds the files. -/
structure Compacts (readInput : Bytes → Option CompactionServiceInput) (env : Env) (db : Bytes)
    (f : Fields) (csi : CompactionServiceInput) (c : Compaction) (out : Bytes) : Prop where
  input : readInput f.input = some csi
  database : c.db = db
  files : c.inputFiles = csi.inputFiles
  family : c.columnFamily = csi.columnFamily ∨ c.columnFamily = kDefaultColumnFamilyName
  found : ∀ n ∈ c.inputFiles, n ∈ env.files db c.columnFamily
  result : env.compacted = some out

/-- The reply is a failure, or it carries the result of a compaction in `db`. -/
def CompactsOn (readInput : Bytes → Option CompactionServiceInput) (env : Env) (o : Outcome)
    (db : Bytes) (f : Fields) : Prop :=
  o = ⟨some failureReply, none⟩ ∨
  ∃ csi c out, Compacts readInput env db f csi c out ∧ o = ⟨some (0 :: out), some c⟩

theorem failureReply_ne (out : Bytes) : some failureReply ≠ some (0 :: out) := by
  simp [failureReply]

theorem CompactsOn.success {env : Env} {o : Outcome} {db : Bytes} {f : Fields}
    (h : CompactsOn readInput env o db f) {r : Bytes} (hr : o.reply = some (0 :: r)) :
    ∃ csi c, o.compaction = some c ∧ Compacts readInput env db f csi c r := by
  rcases h with rfl | ⟨csi, c, out, hc, rfl⟩
  · exact absurd hr (failureReply_ne r)
  · obtain rfl : out = r := List.tail_eq_of_cons_eq (Option.some.inj hr)
    exact ⟨csi, c, rfl, hc⟩

theorem compactionRuns_some {env : Env} {c : Compaction} {out : Bytes}
    (h : compactionRuns env c = some out) :
    (∀ n ∈ c.inputFiles, n ∈ env.files c.db c.columnFamily) ∧ env.compacted = some out := by
  unfold compactionRuns at h
  split at h
  · next hall =>
    refine ⟨fun n hn => ?_, h⟩
    exact List.contains_iff_mem.mp (List.all_eq_true.mp hall n hn)
  · cases h

theorem openAndCompact_spec (env : Env) (f : Fields) :
    CompactsOn readInput env (openAndCompact readInput env f) f.dbName f := by
  unfold openAndCompact
  split
  · exact .inl rfl
  · next csi hcsi =>
    dsimp only
    split
    · exact .inl rfl
    · next output hout =>
      obtain ⟨hfound, hresult⟩ := compactionRuns_some hout
      split
      · exact .inr ⟨csi, _, output, ⟨hcsi, rfl, rfl, .inl rfl, hfound, hresult⟩, rfl⟩
      · exact .inl rfl

theorem compactOnSecondary_spec {g : Globals} {sec : Secondary} {env : Env} {f : Fields}
    {o : Outcome} (h : compactOnSecondary readInput g sec env f = some o) :
    CompactsOn readInput env o sec.db f := by
  unfold compactOnSecondary at h
  split at h
  · exact .inl (Option.some.inj h).symm
  · next csi hcsi =>
    dsimp only at h
    split at h
    · exact .inl (Option.some.inj h).symm
    · next output hout =>
      obtain ⟨hfound, hresult⟩ := compactionRuns_some hout
      have hsucc : ∀ o', some o' = some o →
          o' = ⟨some (0 :: output), some ⟨sec.db, kDefaultColumnFamilyName, sec.options,
            csi.inputFiles, kSecondaryPath⟩⟩ → CompactsOn readInput env o sec.db f := by
        intro o' heq ho'
        rw [Option.some.inj heq] at ho'
        exact .inr ⟨csi, _, output, ⟨hcsi, rfl, rfl, .inr rfl, hfound, hresult⟩, ho'⟩
      split at h
      · split at h
        · split at h
          · cases h
          · exact hsucc _ h rfl
        · exact hsucc _ h rfl
      · exact .inl (Option.some.inj h).symm

/-- One job either leaves the secondary as it was, with a reply that is a
failure, missing or from the job's own database, or it answers from the
secondary, which it opened itself or found open. -/
theorem handleJob_cases {g g' : Globals} {msg : Option Bytes} {env : Env} {o : Outcome}
    (h : handleJob readInput g msg env = some (g', o)) :
    (g' = g ∧ (o = ⟨none, none⟩ ∨ o = ⟨some failureReply, none⟩)) ∨
    (∃ buf f, msg = some buf ∧ parseJob buf = some f ∧ g' = g ∧
      CompactsOn readInput env o f.dbName f) ∨
    (∃ buf f sec, msg = some buf ∧ parseJob buf = some f ∧
      g' = { g with secondary := some sec } ∧
      (g.secondary = some sec ∨ (g.secondary = none ∧ sec.db = f.dbName)) ∧
      CompactsOn readInput env o sec.db f) := by
  unfold handleJob at h
  split at h
  · simp only [Option.some.injEq, Prod.mk.injEq] at h
    obtain ⟨rfl, rfl⟩ := h
    exact .inl ⟨rfl, .inl rfl⟩
  · next buf =>
    split at h
    · simp only [Option.some.injEq, Prod.mk.injEq] at h
      obtain ⟨rfl, rfl⟩ := h
      exact .inl ⟨rfl, .inr rfl⟩
    · next f hf =>
      split at h
      · simp only [Option.some.injEq, Prod.mk.injEq] at h
        obtain ⟨rfl, rfl⟩ := h
        exact .inr (.inl ⟨buf, f, rfl, hf, rfl, openAndCompact_spec env f⟩)
      · next sec hsec =>
        simp only [Option.map_eq_some_iff, Prod.mk.injEq] at h
        obtain ⟨o', ho, rfl, rfl⟩ := h
        exact .inr (.inr ⟨buf, f, sec, rfl, hf, rfl, ensureSecondary_cases hsec,
          compactOnSecondary_spec ho⟩)

theorem handleJob_compacts {g g' : Globals} {msg : Option Bytes} {env : Env} {o : Outcome}
    (h : handleJob readInput g msg env = some (g', o)) {r : Bytes}
    (hr : o.reply = some (0 :: r)) :
    ∃ buf f db csi c, msg = some buf ∧ parseJob buf = some f ∧ o.compaction = some c ∧
      Compacts readInput env db f csi c r := by
  rcases handleJob_cases h with ⟨-, rfl | rfl⟩ | ⟨buf, f, hmsg, hf, -, hc⟩ |
    ⟨buf, f, _, hmsg, hf, -, -, hc⟩
  · cases hr
  · exact absurd hr (failureReply_ne r)
  · obtain ⟨csi, c, hcomp, hc⟩ := hc.success hr
    exact ⟨buf, f, _, csi, c, hmsg, hf, hcomp, hc⟩
  · obtain ⟨csi, c, hcomp, hc⟩ := hc.success hr
    exact ⟨buf, f, _, csi, c, hmsg, hf, hcomp, hc⟩

/-- As long as every request names the database of the secondary, every
compaction is made there. -/
theorem handleJob_database {g g' : Globals} {msg : Option Bytes} {env : Env} {o : Outcome}
    {db : Bytes} (h : handleJob readInput g msg env = some (g', o))
    (hg : ∀ sec, g.secondary = some sec → sec.db = db)
    (hmsg : ∀ f, msg.bind parseJob = some f → f.dbName = db) :
    (∀ sec, g'.secondary = some sec → sec.db = db) ∧
    ∀ r, o.reply = some (0 :: r) → ∃ f csi c, msg.bind parseJob = some f ∧
      o.compaction = some c ∧ Compacts readInput env db f csi c r := by
  rcases handleJob_cases h with ⟨rfl, rfl | rfl⟩ | ⟨buf, f, rfl, hf, rfl, hc⟩ |
    ⟨buf, f, sec, rfl, hf, rfl, hsec, hc⟩
  · exact ⟨hg, fun r hr => by cases hr⟩
  · exact ⟨hg, fun r hr => absurd hr (failureReply_ne r)⟩
  · rw [hmsg f hf] at hc
    refine ⟨hg, fun r hr => ?_⟩
    obtain ⟨csi, c, hcomp, hc⟩ := hc.success hr
    exact ⟨f, csi, c, hf, hcomp, hc⟩
  · have hdb : sec.db = db := by
      rcases hsec with hold | ⟨-, hnew⟩
      · exact hg sec hold
      · exact hnew.trans (hmsg f hf)
    rw [hdb] at hc
    refine ⟨fun sec' hsec' => Option.some.inj hsec' ▸ hdb, fun r hr => ?_⟩
    obtain ⟨csi, c, hcomp, hc⟩ := hc.success hr
    exact ⟨f, csi, c, hf, hcomp, hc⟩

/-- A reply is the failure byte, or the zero byte and the compaction's result. -/
theorem handleJob_reply {g g' : Globals} {msg : Option Bytes} {env : Env} {o : Outcome}
    (h : handleJob readInput g msg env = some (g', o)) {reply : Bytes}
    (hr : o.reply = some reply) :
    reply = failureReply ∨ ∃ out, env.compacted = some out ∧ reply = 0 :: out := by
  have hcases : ∀ db f, CompactsOn readInput env o db f →
      reply = failureReply ∨ ∃ out, env.compacted = some out ∧ reply = 0 :: out := by
    rintro db f (ho | ⟨_, _, out, hc, ho⟩)
    · rw [ho] at hr
      exact .inl (Option.some.inj hr).symm
    · rw [ho] at hr
      exact .inr ⟨out, hc.result, (Option.some.inj hr).symm⟩
  rcases handleJob_cases h with ⟨-, rfl | rfl⟩ | ⟨_, f, -, -, -, hc⟩ | ⟨_, f, _, -, -, -, -, hc⟩
  · cases hr
  · exact .inl (Option.some.inj hr).symm
  · exact hcases _ f hc
  · exact hcases _ f hc

end PnmCompaction.Worker
