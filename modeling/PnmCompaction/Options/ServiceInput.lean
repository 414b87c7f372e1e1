import PnmCompaction.Options.StructRoundTrip

/-!
# The request of a compaction (`rocksdb/db/compaction/compaction_service_job.cc`)

`CompactionServiceInput` is written by the primary and read by the worker as options
text behind a format version (lines 1005-1032). The worker finds the input files by
their numbers, which the names carry (`rocksdb/file/filename.cc`).
-/

namespace PnmCompaction.Options

open PnmCompaction.Lib
open PnmCompaction.Lib.LittleEndian
open PnmCompaction.Worker (ascii)
open OptionTypeInfo

/-! ### Objects behind a format version -/

/-- The one `BinaryFormatVersion` (compaction_service_job.cc:472-474). -/
def kOptionsString : ℕ := 1

section Binary

variable {F : Type} {Ty : F → Type} [DecidableEq F] (t : TypeMap F Ty)

/-- `Read` of `CompactionServiceInput` and of `CompactionServiceResult`, which differ in
their messages and tables. -/
def readBinary (typeName dataName : Bytes) (p : Process) (data : Bytes) (obj : (f : F) → Ty f) :
    Except Error ((f : F) → Ty f) :=
  if data.length ≤ 4 then
    .error (.of .invalidArgument (ascii "Invalid " ++ typeName ++ ascii " string"))
  else
    let formatVersion := leVal (data.take 4)
    if formatVersion = kOptionsString then
      (t.parseType { p.configOptions with ignoreUnknownOptions := true } false (data.drop 4)
        obj).map Prod.fst
    else
      .error (.of .notSupported
        (dataName ++ ascii " data version not supported: " ++ natToString formatVersion))

omit [DecidableEq F] in
def writeBinary (p : Process) (obj : (f : F) → Ty f) : Except Error Bytes :=
  (t.serializeType p.configOptions obj).map (leBytes 4 kOptionsString ++ ·)

theorem read_writeBinary {after : (f : F) → Ty f → Ty f → Ty f}
    (h : ∀ f, RoundTrips (t.info f) (t.name f) (after f)) [Nonempty F] (w : Process)
    (obj : (f : F) → Ty f) :
    ∃ data, writeBinary t w obj = .ok data ∧
      ∀ typeName dataName (r : Process) old, readBinary t typeName dataName r data old =
        .ok fun f => after f (obj f) (old f) := by
  obtain ⟨ws, hser, hws⟩ := t.serializeType_written h (w := w.configOptions) rfl obj
  refine ⟨_, by rw [writeBinary, hser]; rfl, fun typeName dataName r old => ?_⟩
  obtain ⟨f, rest, hcons⟩ := List.exists_cons_of_ne_nil (hws.nonempty inferInstance)
  have hlen : ¬(leBytes 4 kOptionsString ++ ws.flatMap WrittenField.print).length ≤ 4 := by
    rw [List.length_append, leBytes_length, hcons]
    simp [WrittenField.print]
  have hversion : leVal ((leBytes 4 kOptionsString ++
      ws.flatMap WrittenField.print).take 4) = kOptionsString := by
    rw [List.take_left' (leBytes_length 4 _)]
    decide
  rw [readBinary, if_neg hlen, List.drop_left' (leBytes_length 4 _)]
  dsimp only
  rw [if_pos hversion, hws.parseType (stringToMap_fields hws.nodup)]
  rfl

end Binary

/-! ### The type table of the request -/

inductive InputField where
  | cfName
  | snapshots
  | inputFiles
  | outputLevel
  | dbId
  | hasBegin
  | beginKey
  | hasEnd
  | endKey
  | optionsFileNumber
  deriving DecidableEq, Repr

namespace InputField

abbrev Ty : InputField → Type
  | .cfName => Bytes
  | .snapshots => List UInt64
  | .inputFiles => List Bytes
  | .outputLevel => Int32
  | .dbId => Bytes
  | .hasBegin => Bool
  | .beginKey => Bytes
  | .hasEnd => Bool
  | .endKey => Bytes
  | .optionsFileNumber => UInt64

def all : List InputField :=
  [.cfName, .snapshots, .inputFiles, .outputLevel, .dbId, .hasBegin, .beginKey, .hasEnd, .endKey,
    .optionsFileNumber]

def name : InputField → Bytes
  | .cfName => ascii "cf_name"
  | .snapshots => ascii "snapshots"
  | .inputFiles => ascii "input_files"
  | .outputLevel => ascii "output_level"
  | .dbId => ascii "db_id"
  | .hasBegin => ascii "has_begin"
  | .beginKey => ascii "begin"
  | .hasEnd => ascii "has_end"
  | .endKey => ascii "end"
  | .optionsFileNumber => ascii "options_file_number"

def info : (f : InputField) → OptionTypeInfo f.Ty
  | .cfName => single .encodedString
  -- `T elem;` of a number is not initialised, the parser writes all of it
  | .snapshots => vector (single .uInt64T) (ch ':') 0
  | .inputFiles => vector (single .encodedString) (ch ':') []
  | .outputLevel => single .int
  | .dbId => single .encodedString
  | .hasBegin => single .boolean
  | .beginKey => single .encodedString
  | .hasEnd => single .boolean
  | .endKey => single .encodedString
  | .optionsFileNumber => single .uInt64T

end InputField

/-- `cs_input_type_info` (compaction_service_job.cc:515-550). -/
def csInputTypeInfo : TypeMap InputField InputField.Ty where
  fields := InputField.all
  name := InputField.name
  info := InputField.info
  complete f := by cases f <;> decide
  distinct := by decide +kernel
  isName f := isName_of_plainName (by cases f <;> decide +kernel)

/-- A `CompactionServiceInput`. -/
abbrev Input := (f : InputField) → f.Ty

namespace Input

def read (p : Process) (data : Bytes) (obj : Input) : Except Error Input :=
  readBinary csInputTypeInfo (ascii "CompactionServiceInput") (ascii "Compaction Service Input")
    p data obj

def write (p : Process) (obj : Input) : Except Error Bytes := writeBinary csInputTypeInfo p obj

/-- `CompactionServiceInput()`. -/
def fresh : Input
  | .cfName => []
  | .snapshots => []
  | .inputFiles => []
  | .outputLevel => 0
  | .dbId => []
  | .hasBegin => false
  | .beginKey => []
  | .hasEnd => false
  | .endKey => []
  | .optionsFileNumber => 0

end Input

/-- What of a field arrives: an empty file name is written as nothing. -/
def InputField.carried : (f : InputField) → f.Ty → f.Ty
  | .inputFiles, names => names.filter (· ≠ [])
  | .cfName, v => v
  | .snapshots, v => v
  | .outputLevel, v => v
  | .dbId, v => v
  | .hasBegin, v => v
  | .beginKey, v => v
  | .hasEnd, v => v
  | .endKey, v => v
  | .optionsFileNumber, v => v

theorem InputField.roundTrips (f : InputField) :
    RoundTrips f.info f.name fun v _ => f.carried v := by
  cases f with
  | snapshots =>
    refine (vector_roundTrips (single_elementRoundTrips .uInt64T _) _).congr fun v _ => ?_
    exact (List.map_id _).trans (List.filter_eq_self.mpr fun _ _ => rfl)
  | inputFiles =>
    refine (vector_roundTrips (single_elementRoundTrips .encodedString _) _).congr fun v _ => ?_
    refine (List.map_id _).trans (List.filter_congr fun s _ => ?_)
    cases s <;> rfl
  | cfName | dbId | beginKey | endKey =>
    exact (single_elementRoundTrips .encodedString _).roundTrips
  | hasBegin | hasEnd => exact (single_elementRoundTrips .boolean _).roundTrips
  | outputLevel => exact (single_elementRoundTrips .int _).roundTrips
  | optionsFileNumber => exact (single_elementRoundTrips .uInt64T _).roundTrips

instance : Nonempty InputField := ⟨.cfName⟩

theorem input_written (w : Process) (input : Input) :
    ∃ data, Input.write w input = .ok data ∧
      ∀ r old, Input.read r data old = .ok fun f => f.carried (input f) := by
  obtain ⟨data, hwrite, hread⟩ := read_writeBinary csInputTypeInfo InputField.roundTrips w input
  exact ⟨data, hwrite, fun r old => hread _ _ r old⟩

/-- The worker reads the request that the primary wrote, whatever the order in which either
of them walks through its maps. -/
theorem input_read_write (w r : Process) (input old : Input) :
    ∃ data, Input.write w input = .ok data ∧
      Input.read r data old = .ok fun f => f.carried (input f) := by
  obtain ⟨data, hwrite, hread⟩ := input_written w input
  exact ⟨data, hwrite, hread r old⟩

/-- A process that walks through its maps from the last entry to the first. -/
def sampleProcess : Process := ⟨fun m => m.reverse, fun m => m.reverse_perm⟩

-- of an empty name not even the separator is written
example : (InputField.info .inputFiles).serialize sampleProcess.configOptions (ascii "input_files")
    [ascii "12.sst", [], ascii "7.sst"] = .ok (ascii "31322E737374:372E737374") := by
  decide +kernel

/-! ### The names of the input files (file/filename.cc) -/

/-- `MakeTableFileName` (filename.cc:66-71, 117-119): `"%06llu.%s"`. -/
def makeTableFileName (number : UInt64) : Bytes :=
  List.replicate (6 - (natToString number.toNat).length) (ch '0') ++ natToString number.toNat ++
    ascii ".sst"

/-- The loop of `TableFileNameToNumber`, over the characters before the last dot from the
last one on. -/
def numberLoop : Bytes → UInt64 → UInt64 → UInt64
  | [], number, _ => number
  | c :: rest, number, base =>
    if isdigit c then numberLoop rest (number + UInt64.ofNat (c.val - 48) * base) (base * 10)
    else number

/-- `TableFileNameToNumber` (filename.cc:130-139). -/
def tableFileNameToNumber (name : Bytes) : UInt64 :=
  numberLoop ((name.reverse.dropWhile (· ≠ ch '.')).drop 1) 0 1

theorem numberLoop_digits {digits : Bytes} (h : ∀ c ∈ digits, isdigit c = true)
    (number base : UInt64) :
    numberLoop digits number base =
      number + base * UInt64.ofNat (Nat.ofDigits 10 (digits.map fun c => c.val - 48)) := by
  induction digits generalizing number base with
  | nil => simp [numberLoop]
  | cons c digits ih =>
    rw [numberLoop, if_pos (h c (by simp)), ih fun d hd => h d (by simp [hd]), List.map_cons,
      Nat.ofDigits_cons, UInt64.ofNat_add, UInt64.ofNat_mul]
    have hten : UInt64.ofNat 10 = 10 := rfl
    grind

theorem tableFileNameToNumber_make (number : UInt64) :
    tableFileNameToNumber (makeTableFileName number) = number := by
  have hbefore : ((makeTableFileName number).reverse.dropWhile (· ≠ ch '.')).drop 1 =
      (natToString number.toNat).reverse ++
        List.replicate (6 - (natToString number.toNat).length) (ch '0') := by
    rw [makeTableFileName, List.reverse_append, List.reverse_append, List.reverse_replicate]
    rfl
  have hdigit : ∀ c ∈ (natToString number.toNat).reverse ++
      List.replicate (6 - (natToString number.toNat).length) (ch '0'), isdigit c = true := by
    intro c hc
    rcases List.mem_append.mp hc with hc | hc
    · exact isdigit_of_mem_natToString (List.mem_reverse.mp hc)
    · rw [List.eq_of_mem_replicate hc]
      decide
  have hvalue : Nat.ofDigits 10 (((natToString number.toNat).map fun c => c.val - 48).reverse) =
      number.toNat := by
    rw [← Decimal.value_reverse, List.reverse_reverse, natToString_value]
  have hzero : (ch '0').val - 48 = 0 := rfl
  rw [tableFileNameToNumber, hbefore, numberLoop_digits hdigit, List.map_append, List.map_reverse,
    List.map_replicate, hzero, Nat.ofDigits_append_replicate_zero, hvalue, UInt64.ofNat_toNat]
  simp

theorem makeTableFileName_ne_nil (number : UInt64) : makeTableFileName number ≠ [] := by
  simp [makeTableFileName, natToString_ne_nil]

/-! ### The request as the worker sees it -/

/-- What `ProcessKeyValueCompactionWithCompactionService` puts into a request. -/
structure Subcompaction where
  outputLevel : Int32
  dbId : Bytes
  /-- The numbers of the input files, level by level. -/
  inputs : List (List UInt64)
  cfName : Bytes
  snapshotSeqs : List UInt64
  start : Option Bytes
  stop : Option Bytes
  optionsFileNumber : UInt64

namespace Subcompaction

/-- Lines 30-52. -/
def input (sub : Subcompaction) : Input
  | .cfName => sub.cfName
  | .snapshots => sub.snapshotSeqs
  | .inputFiles => sub.inputs.flatten.map makeTableFileName
  | .outputLevel => sub.outputLevel
  | .dbId => sub.dbId
  | .hasBegin => sub.start.isSome
  | .beginKey => sub.start.getD []
  | .hasEnd => sub.stop.isSome
  | .endKey => sub.stop.getD []
  | .optionsFileNumber => sub.optionsFileNumber

/-- The part of it that decides what is compacted. -/
def named (sub : Subcompaction) : Worker.CompactionServiceInput :=
  ⟨sub.cfName, sub.inputs.flatten.map UInt64.toNat, sub.optionsFileNumber.toNat⟩

end Subcompaction

/-- `CompactionServiceInput::Read` with the file numbers that `CompactWithoutInstallation`
takes from the names (db/db_impl/db_impl_secondary.cc:1390-1393). -/
def readInput (p : Process) (data : Bytes) : Option Worker.CompactionServiceInput :=
  match Input.read p data Input.fresh with
  | .error _ => none
  | .ok obj => some
      ⟨obj .cfName, (obj .inputFiles).map fun name => (tableFileNameToNumber name).toNat,
        (obj .optionsFileNumber).toNat⟩

theorem readInput_written {w : Process} {sub : Subcompaction} {data : Bytes}
    (hwrite : Input.write w sub.input = .ok data) (r : Process) :
    readInput r data = some sub.named := by
  obtain ⟨data', hwrite', hread⟩ := input_written w sub.input
  cases hwrite.symm.trans hwrite'
  have hfiles : (sub.inputs.flatten.map makeTableFileName).filter (· ≠ []) =
      sub.inputs.flatten.map makeTableFileName := by
    refine List.filter_eq_self.mpr fun s hs => ?_
    obtain ⟨n, -, rfl⟩ := List.mem_map.mp hs
    simp [makeTableFileName_ne_nil]
  have hnumbers : ((sub.inputs.flatten.map makeTableFileName).filter (· ≠ [])).map
      (fun name => (tableFileNameToNumber name).toNat) = sub.inputs.flatten.map UInt64.toNat := by
    rw [hfiles, List.map_map]
    exact List.map_congr_left fun n _ => congrArg UInt64.toNat (tableFileNameToNumber_make n)
  rw [readInput, hread]
  exact congrArg (fun files => some (Worker.CompactionServiceInput.mk sub.cfName files
    sub.optionsFileNumber.toNat)) hnumbers

def sampleSubcompaction : Subcompaction where
  outputLevel := 1
  dbId := ascii "d"
  inputs := [[12], [7, 1234567]]
  cfName := ascii "cf"
  snapshotSeqs := [5, 90]
  start := none
  stop := some (ascii "k;=")
  optionsFileNumber := 4

def sampleData : Bytes :=
  match Input.write sampleProcess sampleSubcompaction.input with
  | .ok data => data
  | .error _ => []

def sampleEnv : Worker.Env where
  latestOptions := some 4
  secondaryOpens := true
  files _ _ := [7, 12, 1234567]
  compacted := some [1]
  resultWrites := true
  polls := []

def sampleCompaction : Worker.Compaction where
  db := ascii "db"
  columnFamily := Worker.kDefaultColumnFamilyName
  options := .file 4
  inputFiles := [12, 7, 1234567]
  outputDir := Worker.kSecondaryPath

end PnmCompaction.Options
