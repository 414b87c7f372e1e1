import PnmCompaction.Options.ServiceInput

/-!
# The result of a compaction (`rocksdb/db/compaction/compaction_service_job.cc`)

`CompactionServiceResult` goes back to the primary as the request came (lines
1034-1061): a status, the metadata of the output files with their table properties,
and the statistics. Only the members that the type tables list are here; a member
without a row is neither written nor read.
-/

namespace PnmCompaction.Options

open PnmCompaction.Lib
open PnmCompaction.Lib.LittleEndian
open PnmCompaction.Worker (ascii)
open OptionTypeInfo

/-! ### Tables of rows -/

/-- The single options of a type table. -/
abbrev Rows := List (String × OptionType)

/-- The other members of an object. -/
structure Members (M : Type) (Ty : M → Type) where
  list : List M
  name : M → Bytes
  info : (m : M) → OptionTypeInfo (Ty m)

namespace Rows

variable {M : Type} {Ty : M → Type} (rows : Rows) (ms : Members M Ty)

abbrev FieldTy (Ty : M → Type) : Fin rows.length ⊕ M → Type
  | .inl i => (rows.get i).2.Val
  | .inr m => Ty m

abbrev Object (Ty : M → Type) := (f : Fin rows.length ⊕ M) → rows.FieldTy Ty f

def names : List Bytes := rows.map (fun row => ascii row.1) ++ ms.list.map ms.name

def fieldName : Fin rows.length ⊕ M → Bytes
  | .inl i => ascii (rows.get i).1
  | .inr m => ms.name m

theorem map_fieldName : ((List.finRange rows.length).map Sum.inl ++ ms.list.map Sum.inr).map
    (rows.fieldName ms) = rows.names ms := by
  have hrows := congrArg (List.map fun row : String × OptionType => ascii row.1)
    (List.map_get_finRange rows)
  rw [List.map_map] at hrows
  rw [List.map_append, List.map_map, List.map_map]
  exact congrArg (· ++ ms.list.map ms.name) hrows

theorem fieldName_mem (hall : ∀ m, m ∈ ms.list) (f : Fin rows.length ⊕ M) :
    rows.fieldName ms f ∈ rows.names ms := by
  cases f with
  | inl i => exact List.mem_append_left _ (List.mem_map_of_mem (List.get_mem rows i))
  | inr m => exact List.mem_append_right _ (List.mem_map_of_mem (hall m))

/-- The names can be the keys of a type table. -/
structure Keys (names : List Bytes) : Prop where
  plain : ∀ name ∈ names, plainName name = true
  distinct : names.Nodup

instance (names : List Bytes) : Decidable (Keys names) :=
  decidable_of_iff ((∀ name ∈ names, plainName name = true) ∧ names.Nodup)
    ⟨fun h => ⟨h.1, h.2⟩, fun h => ⟨h.plain, h.distinct⟩⟩

/-- The type table of an object. -/
def typeMap (hall : ∀ m, m ∈ ms.list) (hkeys : Keys (rows.names ms)) :
    TypeMap (Fin rows.length ⊕ M) (rows.FieldTy Ty) where
  fields := (List.finRange rows.length).map .inl ++ ms.list.map .inr
  name := rows.fieldName ms
  info
    | .inl i => single (rows.get i).2
    | .inr m => ms.info m
  complete f := by
    cases f with
    | inl i => simp
    | inr m => simp [hall m]
  distinct := by
    rw [map_fieldName]
    exact hkeys.distinct
  isName f := isName_of_plainName (hkeys.plain _ (fieldName_mem rows ms hall f))

/-- Rows arrive as they are, the other members as `after` says. -/
def carried (after : (m : M) → Ty m → Ty m → Ty m) :
    (f : Fin rows.length ⊕ M) → rows.FieldTy Ty f → rows.FieldTy Ty f → rows.FieldTy Ty f
  | .inl _, v, _ => v
  | .inr m, v, old => after m v old

theorem carried_self (v old : rows.Object Ty) :
    (fun f => rows.carried (fun _ v _ => v) f (v f) (old f)) = v := by
  funext f
  cases f <;> rfl

theorem typeMap_roundTrips {hall : ∀ m, m ∈ ms.list} {hkeys : Keys (rows.names ms)}
    {after : (m : M) → Ty m → Ty m → Ty m}
    (h : ∀ m, RoundTrips (ms.info m) (ms.name m) (after m)) (f : Fin rows.length ⊕ M) :
    RoundTrips ((rows.typeMap ms hall hkeys).info f) ((rows.typeMap ms hall hkeys).name f)
      (rows.carried after f) := by
  cases f with
  | inl i => exact (single_elementRoundTrips (rows.get i).2 _).roundTrips
  | inr m => exact h m

end Rows

/-! ### The output files -/

def tablePropertiesRows : Rows :=
  [("orig_file_number", .uInt64T), ("data_size", .uInt64T), ("uncompressed_data_size", .uInt64T),
    ("index_size", .uInt64T), ("index_partitions", .uInt64T), ("top_level_index_size", .uInt64T),
    ("index_key_is_user_key", .uInt64T), ("index_value_is_delta_encoded", .uInt64T),
    ("udi_is_primary_index", .uInt64T), ("filter_size", .uInt64T), ("raw_key_size", .uInt64T),
    ("raw_value_size", .uInt64T), ("num_data_blocks", .uInt64T),
    ("num_data_blocks_compression_rejected", .uInt64T),
    ("num_data_blocks_compression_bypassed", .uInt64T), ("num_uniform_blocks", .uInt64T),
    ("num_entries", .uInt64T), ("num_filter_entries", .uInt64T), ("num_deletions", .uInt64T),
    ("num_merge_operands", .uInt64T), ("num_range_deletions", .uInt64T),
    ("format_version", .uInt64T), ("fixed_key_len", .uInt64T), ("column_family_id", .uInt64T),
    ("creation_time", .uInt64T), ("oldest_key_time", .uInt64T), ("newest_key_time", .uInt64T),
    ("file_creation_time", .uInt64T), ("slow_compression_estimated_data_size", .uInt64T),
    ("fast_compression_estimated_data_size", .uInt64T),
    ("external_sst_file_global_seqno_offset", .uInt64T), ("tail_start_offset", .uInt64T),
    ("user_defined_timestamps_persisted", .uInt64T), ("key_largest_seqno", .uInt64T),
    ("key_smallest_seqno", .uInt64T), ("data_block_restart_interval", .uInt64T),
    ("index_block_restart_interval", .uInt64T), ("separate_key_value_in_data_block", .uInt64T),
    ("db_id", .encodedString), ("db_session_id", .encodedString), ("db_host_id", .encodedString),
    ("column_family_name", .encodedString), ("filter_policy_name", .encodedString),
    ("comparator_name", .encodedString), ("merge_operator_name", .encodedString),
    ("prefix_extractor_name", .encodedString), ("property_collectors_names", .encodedString),
    ("compression_name", .encodedString), ("compression_options", .encodedString),
    ("seqno_to_time_mapping", .encodedString)]

inductive PropertiesMember where
  | userCollectedProperties
  | readableProperties
  deriving DecidableEq, Repr

def propertiesMembers : Members PropertiesMember fun _ => StringMap where
  list := [.userCollectedProperties, .readableProperties]
  name
    | .userCollectedProperties => ascii "user_collected_properties"
    | .readableProperties => ascii "readable_properties"
  info _ := stringMap

/-- `table_properties_type_info` (table/table_properties.cc:397-591). -/
def tablePropertiesTypeInfo :
    TypeMap (Fin tablePropertiesRows.length ⊕ PropertiesMember)
      (tablePropertiesRows.FieldTy fun _ => StringMap) :=
  tablePropertiesRows.typeMap propertiesMembers (by intro m; cases m <;> decide)
    (by decide +kernel)

abbrev TableProperties := tablePropertiesRows.Object fun _ : PropertiesMember => StringMap

theorem propertiesMembers_roundTrips (m : PropertiesMember) :
    RoundTrips (propertiesMembers.info m) (propertiesMembers.name m) fun v _ => v :=
  stringMap_roundTrips _

def outputFileRows : Rows :=
  [("file_name", .encodedString), ("file_size", .uInt64T), ("smallest_seqno", .uInt64T),
    ("largest_seqno", .uInt64T), ("smallest_internal_key", .encodedString),
    ("largest_internal_key", .encodedString), ("oldest_ancester_time", .uInt64T),
    ("file_creation_time", .uInt64T), ("epoch_number", .uInt64T),
    ("file_checksum", .encodedString), ("file_checksum_func_name", .encodedString),
    ("paranoid_hash", .uInt64T), ("marked_for_compaction", .boolean),
    ("is_proximal_level_output", .boolean), ("file_temperature", .temperature)]

inductive OutputFileMember where
  | uniqueId
  | tableProperties
  deriving DecidableEq, Repr

abbrev OutputFileMember.Ty : OutputFileMember → Type
  | .uniqueId => Fin 2 → UInt64
  | .tableProperties => TableProperties

def outputFileMembers : Members OutputFileMember OutputFileMember.Ty where
  list := [.uniqueId, .tableProperties]
  name
    | .uniqueId => ascii "unique_id"
    | .tableProperties => ascii "table_properties"
  info
    | .uniqueId => array (single .uInt64T) (ch ':') 2
    | .tableProperties => tablePropertiesTypeInfo.whole

/-- `cs_output_file_type_info` (lines 552-643). -/
def csOutputFileTypeInfo :
    TypeMap (Fin outputFileRows.length ⊕ OutputFileMember)
      (outputFileRows.FieldTy OutputFileMember.Ty) :=
  outputFileRows.typeMap outputFileMembers (by intro m; cases m <;> decide) (by decide +kernel)

/-- A `CompactionServiceOutputFile`. -/
abbrev OutputFile := outputFileRows.Object OutputFileMember.Ty

theorem outputFileMembers_roundTrips (m : OutputFileMember) :
    RoundTrips (outputFileMembers.info m) (outputFileMembers.name m) fun v _ => v := by
  cases m with
  | uniqueId => exact array_roundTrips (single_elementRoundTrips .uInt64T _) (fun _ => rfl) 2
  | tableProperties =>
    refine (tablePropertiesTypeInfo.whole_roundTrips
      (tablePropertiesRows.typeMap_roundTrips _ propertiesMembers_roundTrips) _).congr
      fun v old => ?_
    exact tablePropertiesRows.carried_self v old

/-! ### The statistics -/

/-- The fields of `compaction_job_stats_type_info` (lines 645-766). -/
def jobStatsRows : Rows :=
  [("elapsed_micros", .uInt64T), ("cpu_micros", .uInt64T), ("num_input_records", .uInt64T),
    ("num_blobs_read", .uInt64T), ("num_input_files", .sizeT),
    ("num_input_files_at_output_level", .sizeT), ("num_output_records", .uInt64T),
    ("num_output_files", .sizeT), ("num_output_files_blob", .sizeT),
    ("is_full_compaction", .boolean), ("is_manual_compaction", .boolean),
    ("is_remote_compaction", .boolean), ("total_input_bytes", .uInt64T),
    ("total_blob_bytes_read", .uInt64T), ("total_output_bytes", .uInt64T),
    ("total_output_bytes_blob", .uInt64T), ("num_records_replaced", .uInt64T),
    ("total_input_raw_key_bytes", .uInt64T), ("total_input_raw_value_bytes", .uInt64T),
    ("num_input_deletion_records", .uInt64T), ("num_expired_deletion_records", .uInt64T),
    ("num_corrupt_keys", .uInt64T), ("file_write_nanos", .uInt64T),
    ("file_range_sync_nanos", .uInt64T), ("file_fsync_nanos", .uInt64T),
    ("file_prepare_write_nanos", .uInt64T), ("smallest_output_key_prefix", .encodedString),
    ("largest_output_key_prefix", .encodedString), ("num_single_del_fallthru", .uInt64T),
    ("num_single_del_mismatch", .uInt64T)]

def noMembers : Members Empty fun _ => Empty := ⟨[], nofun, nofun⟩

def compactionJobStatsTypeInfo :
    TypeMap (Fin jobStatsRows.length ⊕ Empty) (jobStatsRows.FieldTy fun _ => Empty) :=
  jobStatsRows.typeMap noMembers nofun (by decide +kernel)

/-- A `CompactionJobStats`. -/
abbrev JobStats := jobStatsRows.Object fun _ : Empty => Empty

theorem noMembers_roundTrips (m : Empty) :
    RoundTrips (noMembers.info m) (noMembers.name m) fun v _ => v :=
  nomatch m

def compactionStatsRows : Rows :=
  [("micros", .uInt64T), ("cpu_micros", .uInt64T), ("bytes_read_non_output_levels", .uInt64T),
    ("bytes_read_output_level", .uInt64T), ("bytes_skipped_non_output_levels", .uInt64T),
    ("bytes_skipped_output_level", .uInt64T), ("bytes_read_blob", .uInt64T),
    ("bytes_written", .uInt64T), ("bytes_written_blob", .uInt64T), ("bytes_moved", .uInt64T),
    ("num_input_files_in_non_output_levels", .int), ("num_input_files_in_output_level", .int),
    ("num_filtered_input_files_in_non_output_levels", .int),
    ("num_filtered_input_files_in_output_level", .int), ("num_output_files", .int),
    ("num_output_files_blob", .int), ("num_input_records", .uInt64T),
    ("num_dropped_records", .uInt64T), ("num_output_records", .uInt64T), ("count", .uInt64T)]

/-- The number of compactions for each `CompactionReason`; the table is one short of
`kNumOfReasons`. -/
abbrev Counts := Fin 21 → Int32

def countsMembers : Members Unit fun _ => Counts where
  list := [()]
  name _ := ascii "counts"
  info _ := (array (single .int) (ch ':') 20).through Fin.init Fin.init
    fun counts old => Fin.snoc counts (old (Fin.last 20))

/-- `compaction_stats_type_info` (lines 768-869). -/
def compactionStatsTypeInfo :
    TypeMap (Fin compactionStatsRows.length ⊕ Unit)
      (compactionStatsRows.FieldTy fun _ => Counts) :=
  compactionStatsRows.typeMap countsMembers (by intro m; cases m; decide) (by decide +kernel)

/-- An `InternalStats::CompactionStats`. Its `count` is an `int` that the table describes as a
64-bit number: the field is the eight bytes there, `count` and the first of `counts`. -/
abbrev CompactionStats := compactionStatsRows.Object fun _ : Unit => Counts

def CompactionStats.carried (v old : CompactionStats) : CompactionStats
  | .inl i => v (.inl i)
  | .inr () => Fin.snoc (Fin.init (v (.inr ()))) (old (.inr ()) (Fin.last 20))

/-- The field of the row `count`. -/
def CompactionStats.count (v : CompactionStats) : UInt64 := v (.inl ⟨19, by decide⟩)

/-- Both fields hold the first of `counts`. -/
def CompactionStats.Agrees (v : CompactionStats) : Prop :=
  Int32.ofInt (v.count.toNat / 2 ^ 32 : ℕ) = v (.inr ()) 0

/-- What is read back agrees again, so the order in which the two fields are parsed does
not matter. -/
theorem CompactionStats.carried_agrees {v : CompactionStats} (h : v.Agrees)
    (old : CompactionStats) : (CompactionStats.carried v old).Agrees := h

theorem countsMembers_roundTrips (m : Unit) :
    RoundTrips (countsMembers.info m) (countsMembers.name m)
      fun v old => Fin.snoc (Fin.init v) (old (Fin.last 20)) :=
  (array_roundTrips (single_elementRoundTrips .int _) (fun _ => rfl) 20).through _ _ _

inductive InternalStatsMember where
  | outputLevelStats
  | proximalLevelStats
  deriving DecidableEq, Repr

def internalStatsRows : Rows := [("has_proximal_level_output", .boolean)]

def internalStatsMembers : Members InternalStatsMember fun _ => CompactionStats where
  list := [.outputLevelStats, .proximalLevelStats]
  name
    | .outputLevelStats => ascii "output_level_stats"
    | .proximalLevelStats => ascii "proximal_level_stats"
  info
    | .outputLevelStats => compactionStatsTypeInfo.struct (ascii "output_level_stats")
    | .proximalLevelStats => compactionStatsTypeInfo.struct (ascii "proximal_level_stats")

/-- `compaction_internal_stats_type_info` (lines 871-890). -/
def compactionInternalStatsTypeInfo :
    TypeMap (Fin internalStatsRows.length ⊕ InternalStatsMember)
      (internalStatsRows.FieldTy fun _ => CompactionStats) :=
  internalStatsRows.typeMap internalStatsMembers (by intro m; cases m <;> decide)
    (by decide +kernel)

/-- An `InternalStats::CompactionStatsFull`. -/
abbrev InternalStats := internalStatsRows.Object fun _ : InternalStatsMember => CompactionStats

def InternalStats.carried (v old : InternalStats) : InternalStats
  | .inl i => v (.inl i)
  | .inr m => CompactionStats.carried (v (.inr m)) (old (.inr m))

theorem internalStatsMembers_roundTrips (m : InternalStatsMember) :
    RoundTrips (internalStatsMembers.info m) (internalStatsMembers.name m)
      CompactionStats.carried := by
  have hstruct : ∀ name, RoundTrips (compactionStatsTypeInfo.struct name) name
      CompactionStats.carried := by
    intro name
    have : Nonempty (Fin compactionStatsRows.length ⊕ Unit) := ⟨.inr ()⟩
    refine (compactionStatsTypeInfo.struct_elementRoundTrips
      (compactionStatsRows.typeMap_roundTrips _ countsMembers_roundTrips) name).roundTrips.congr
      fun v old => funext fun f => ?_
    cases f <;> rfl
  cases m with
  | outputLevelStats => exact hstruct _
  | proximalLevelStats => exact hstruct _

/-! ### The status -/

/-- A `Status` with its `state_`, if it has one. -/
structure Status where
  code : UInt8
  subcode : UInt8
  severity : UInt8
  retryable : Bool
  dataLoss : Bool
  scope : UInt8
  state : Option Bytes

/-- The fields of `StatusSerializationAdapter`. -/
inductive StatusField where
  | code
  | subcode
  | severity
  | message
  deriving DecidableEq, Repr

namespace StatusField

abbrev kind : StatusField → OptionType
  | .code => .uInt8T
  | .subcode => .uInt8T
  | .severity => .uInt8T
  | .message => .encodedString

def name : StatusField → Bytes
  | .code => ascii "code"
  | .subcode => ascii "subcode"
  | .severity => ascii "severity"
  | .message => ascii "message"

end StatusField

abbrev StatusAdapter := (f : StatusField) → f.kind.Val

/-- `status_adapter_type_info` (lines 918-936). -/
def statusAdapterTypeInfo : TypeMap StatusField fun f => f.kind.Val where
  fields := [.code, .subcode, .severity, .message]
  name := StatusField.name
  info f := single f.kind
  complete f := by cases f <;> decide
  distinct := by decide +kernel
  isName f := isName_of_plainName (by cases f <;> decide +kernel)

namespace Status

/-- The constructor of `StatusSerializationAdapter` (lines 902-908): the message ends at the
first NUL of the state. -/
def adapter (s : Status) : StatusAdapter
  | .code => s.code
  | .subcode => s.subcode
  | .severity => s.severity
  | .message => (s.state.getD []).takeWhile (· ≠ 0)

/-- `GetStatus` (lines 910-914). -/
def ofAdapter (a : StatusAdapter) : Status :=
  ⟨a .code, a .subcode, a .severity, false, false, 0, some (a .message)⟩

/-- The status that arrives. -/
def carried (s : Status) : Status := ofAdapter s.adapter

end Status

/-! ### The result -/

section Result

-- what `StatusSerializationAdapter adapter;` and `CompactionServiceOutputFile elem;` hold
variable (adapter₀ : StatusAdapter) (file₀ : OutputFile)

inductive ResultMember where
  | status
  | outputFiles
  | stats
  | internalStats
  deriving DecidableEq, Repr

abbrev ResultMember.Ty : ResultMember → Type
  | .status => Status
  | .outputFiles => List OutputFile
  | .stats => JobStats
  | .internalStats => InternalStats

def resultRows : Rows :=
  [("output_level", .int), ("output_path", .encodedString), ("bytes_read", .uInt64T),
    ("bytes_written", .uInt64T)]

def resultMembers : Members ResultMember ResultMember.Ty where
  list := [.status, .outputFiles, .stats, .internalStats]
  name
    | .status => ascii "status"
    | .outputFiles => ascii "output_files"
    | .stats => ascii "stats"
    | .internalStats => ascii "internal_stats"
  info
    | .status => statusAdapterTypeInfo.whole.through Status.adapter (fun _ => adapter₀)
        fun a _ => Status.ofAdapter a
    | .outputFiles => vector (csOutputFileTypeInfo.struct (ascii "output_files")) (ch ':') file₀
    | .stats => compactionJobStatsTypeInfo.struct (ascii "stats")
    | .internalStats => compactionInternalStatsTypeInfo.struct (ascii "internal_stats")

theorem resultKeys : Rows.Keys (resultRows.names (resultMembers adapter₀ file₀)) := by
  change Rows.Keys (resultRows.map (fun row => ascii row.1) ++
    [ascii "status", ascii "output_files", ascii "stats", ascii "internal_stats"])
  decide +kernel

theorem mem_resultMembers (m : ResultMember) : m ∈ (resultMembers adapter₀ file₀).list := by
  change m ∈ [.status, .outputFiles, .stats, .internalStats]
  cases m <;> decide

/-- `cs_result_type_info` (lines 938-1003). -/
def csResultTypeInfo :
    TypeMap (Fin resultRows.length ⊕ ResultMember) (resultRows.FieldTy ResultMember.Ty) :=
  resultRows.typeMap (resultMembers adapter₀ file₀) (mem_resultMembers adapter₀ file₀)
    (resultKeys adapter₀ file₀)

/-- A `CompactionServiceResult`. -/
abbrev Result := resultRows.Object ResultMember.Ty

namespace Result

def read (p : Process) (data : Bytes) (obj : Result) : Except Error Result :=
  readBinary (csResultTypeInfo adapter₀ file₀) (ascii "CompactionServiceResult")
    (ascii "Compaction Service Result") p data obj

def write (p : Process) (obj : Result) : Except Error Bytes :=
  writeBinary (csResultTypeInfo adapter₀ file₀) p obj

/-- What of a result arrives in an object that held `old`. -/
def carried (result old : Result) : Result
  | .inl i => result (.inl i)
  | .inr .status => (result (.inr .status)).carried
  | .inr .outputFiles => result (.inr .outputFiles)
  | .inr .stats => result (.inr .stats)
  | .inr .internalStats =>
    InternalStats.carried (result (.inr .internalStats)) (old (.inr .internalStats))

end Result

def ResultMember.carried : (m : ResultMember) → m.Ty → m.Ty → m.Ty
  | .status, s, _ => s.carried
  | .outputFiles, files, _ => files
  | .stats, v, _ => v
  | .internalStats, v, old => InternalStats.carried v old

theorem status_roundTrips (name : Bytes) :
    RoundTrips ((resultMembers adapter₀ file₀).info .status) name fun s _ => s.carried :=
  (statusAdapterTypeInfo.whole_roundTrips
    (fun f => (single_elementRoundTrips f.kind _).roundTrips) name).through _ _ _

theorem outputFiles_roundTrips :
    RoundTrips ((resultMembers adapter₀ file₀).info .outputFiles) (ascii "output_files")
      fun files _ => files := by
  have : Nonempty (Fin outputFileRows.length ⊕ OutputFileMember) := ⟨.inr .uniqueId⟩
  refine (vector_roundTrips (csOutputFileTypeInfo.struct_elementRoundTrips
    (outputFileRows.typeMap_roundTrips _ outputFileMembers_roundTrips) _) file₀).congr
    fun files _ => ?_
  have hall : files.filter (fun _ => !false) = files := List.filter_eq_self.mpr fun _ _ => rfl
  rw [hall]
  exact (List.map_congr_left fun file _ => outputFileRows.carried_self file file₀).trans
    (List.map_id files)

theorem resultMember_roundTrips (m : ResultMember) :
    RoundTrips ((resultMembers adapter₀ file₀).info m) ((resultMembers adapter₀ file₀).name m)
      m.carried := by
  cases m with
  | status => exact status_roundTrips adapter₀ file₀ _
  | outputFiles => exact outputFiles_roundTrips adapter₀ file₀
  | stats =>
    have : Nonempty (Fin jobStatsRows.length ⊕ Empty) := ⟨.inl ⟨0, by decide⟩⟩
    exact (compactionJobStatsTypeInfo.struct_elementRoundTrips
      (jobStatsRows.typeMap_roundTrips _ noMembers_roundTrips) _).roundTrips.congr
      jobStatsRows.carried_self
  | internalStats =>
    have : Nonempty (Fin internalStatsRows.length ⊕ InternalStatsMember) :=
      ⟨.inr .outputLevelStats⟩
    refine (compactionInternalStatsTypeInfo.struct_elementRoundTrips
      (internalStatsRows.typeMap_roundTrips _ internalStatsMembers_roundTrips) _).roundTrips.congr
      fun v old => funext fun f => ?_
    cases f <;> rfl

/-- The primary reads the result that the worker wrote. Of the status it gets the code, the
message and the severity; the count of the last compaction reason stays what it was. -/
theorem result_read_write (w r : Process) (result old : Result) :
    ∃ data, Result.write adapter₀ file₀ w result = .ok data ∧
      Result.read adapter₀ file₀ r data old = .ok (result.carried old) := by
  have : Nonempty (Fin resultRows.length ⊕ ResultMember) := ⟨.inr .status⟩
  obtain ⟨data, hwrite, hread⟩ := read_writeBinary (csResultTypeInfo adapter₀ file₀)
    (resultRows.typeMap_roundTrips _ (resultMember_roundTrips adapter₀ file₀)) w result
  refine ⟨data, hwrite, (hread _ _ r old).trans (congrArg Except.ok (funext fun f => ?_))⟩
  match f with
  | .inl i => rfl
  | .inr .status => rfl
  | .inr .outputFiles => rfl
  | .inr .stats => rfl
  | .inr .internalStats => rfl

end Result

end PnmCompaction.Options
