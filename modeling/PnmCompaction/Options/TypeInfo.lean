import Mathlib.Data.Fin.Tuple.Basic
import PnmCompaction.Options.Scalars

/-!
# Option type descriptions (`rocksdb/include/rocksdb/utilities/options_type.h`)

An `OptionTypeInfo` says how a member of an object is parsed and serialized; a type
table maps the names of an object's members to such descriptions. The source finds
a member by its offset. Here an object is a function on its fields, so that to
write one member is to update the function there.
-/

namespace PnmCompaction.Options

open PnmCompaction.Lib
open PnmCompaction.Lib.LittleEndian
open PnmCompaction.Worker (ascii)

/-- The order in which a process walks through an `unordered_map`. -/
structure Process where
  order : {β : Type} → List (Bytes × β) → List (Bytes × β)
  order_perm : ∀ {β : Type} (m : List (Bytes × β)), (order m).Perm m

structure ConfigOptions extends Process where
  ignoreUnknownOptions : Bool
  ignoreUnsupportedOptions : Bool
  inputStringsEscaped : Bool
  delimiter : Bytes

/-- `ConfigOptions()` (include/rocksdb/convenience.h:64-83). -/
def Process.configOptions (p : Process) : ConfigOptions :=
  { p with
    ignoreUnknownOptions := false
    ignoreUnsupportedOptions := true
    inputStringsEscaped := true
    delimiter := ascii ";" }

/-- `embedded`: the delimiter inside of a nested value. -/
def ConfigOptions.embedded (cfg : ConfigOptions) : ConfigOptions :=
  { cfg with delimiter := ascii ";" }

structure OptionTypeInfo (α : Type) where
  /-- `IsStruct() || IsConfigurable()`: a dotted name may reach into it. -/
  nested : Bool
  parseFunc : ConfigOptions → Bytes → Bytes → α → Except Error α
  serialize : ConfigOptions → Bytes → α → Except Error Bytes

namespace OptionTypeInfo

variable {α : Type}

/-- `OptionTypeInfo::Parse` (options_helper.cc:1056-1103). -/
def parse (info : OptionTypeInfo α) (cfg : ConfigOptions) (name value : Bytes) (old : α) :
    Except Error α :=
  info.parseFunc cfg name
    (if cfg.inputStringsEscaped then unescapeOptionString value else value) old

/-- A single option of type `k`. -/
def single (k : OptionType) : OptionTypeInfo k.Val where
  nested := false
  parseFunc _ name value old :=
    match parseOptionHelper k value old with
    | .error what =>
      .error (.of .invalidArgument (ascii "Error parsing " ++ name ++ ascii ":" ++ what))
    | .ok none => .error (.of2 .invalidArgument (ascii "Error parsing:") name)
    | .ok (some v) => .ok v
  serialize _ name v :=
    match serializeSingleOptionHelper k v with
    | none => .error (.of2 .invalidArgument (ascii "Cannot serialize option: ") name)
    | some text => .ok text

/-- A member that is read into and written from another object, which starts as
`start` when it is read. -/
def through {β : Type} (info : OptionTypeInfo β) (get start : α → β) (set : β → α → α) :
    OptionTypeInfo α where
  nested := info.nested
  parseFunc cfg name value old :=
    (info.parseFunc cfg name value (start old)).map (set · old)
  serialize cfg name v := info.serialize cfg name (get v)

/-! ### Vectors and arrays -/

def join (separator : Byte) : List Bytes → Bytes
  | [] => []
  | [s] => s
  | s :: t :: rest => s ++ separator :: join separator (t :: rest)

/-- An element that holds the separator is put in braces. -/
def embrace (separator : Byte) (s : Bytes) : Bytes := if separator ∈ s then braces s else s

/-- The end of `SerializeVector` and of `SerializeArray` (options_type.h:1048-1081,
1180-1213), from the texts of the elements. -/
def elementsText (separator : Byte) (texts : List Bytes) : Bytes :=
  let printed := texts.filter (· ≠ [])
  let result := join separator (printed.map (embrace separator))
  if ch '=' ∈ result then braces result
  else if 1 < printed.length ∧ result.head? = some (ch '{') then braces result
  else result

/-- The loop over the tokens of a value, as in `ParseVector` and `StringMap`:
`for (start = 0, end = 0; s.ok() && start < value.size() && end != npos; start = end + 1)`. -/
def tokenLoop {σ : Type} (separator : Byte) (f : Bytes → σ → Except Error σ) (value : Bytes)
    (acc : σ) : Except Error σ :=
  if _hend : value = [] then .ok acc
  else
    match _htok : nextToken separator value with
    | .error e => .error e
    | .ok (token, rest) =>
      match f token acc with
      | .error e => .error e
      | .ok acc =>
        match rest with
        | none => .ok acc
        | some rest => tokenLoop separator f (rest.drop 1) acc
termination_by value.length
decreasing_by
  have hrest := nextToken_rest _htok
  have hpos := List.length_pos_of_ne_nil _hend
  rw [List.length_drop]
  omega

section Elements

variable (elem : OptionTypeInfo α) (separator : Byte)

/-- An element whose status may be ignored: `none`. -/
def parseElement (cfg : ConfigOptions) (name token : Bytes) (old : α) :
    Except Error (Option α) :=
  match elem.parse { cfg with ignoreUnsupportedOptions := false } name token old with
  | .error e =>
    if cfg.ignoreUnsupportedOptions ∧ e.code = .notSupported then .ok none else .error e
  | .ok a => .ok (some a)

/-- `ParseVector` (options_type.h:1129-1159); `elem₀` is what `T elem;` holds. -/
def parseVector (elem₀ : α) (cfg : ConfigOptions) (name value : Bytes) : Except Error (List α) :=
  tokenLoop separator
    (fun token acc => (parseElement elem cfg name token elem₀).map fun a => acc ++ a.toList)
    value []

def serializeElements (cfg : ConfigOptions) (name : Bytes) : List α → Except Error (List Bytes)
  | [] => .ok []
  | a :: rest =>
    match elem.serialize cfg.embedded name a with
    | .error e => .error e
    | .ok text => (serializeElements cfg name rest).map (text :: ·)

/-- `OptionTypeInfo::Vector`. -/
def vector (elem₀ : α) : OptionTypeInfo (List α) where
  nested := false
  parseFunc cfg name value _ := parseVector elem separator elem₀ cfg name value
  serialize cfg name v := (serializeElements elem cfg name v).map (elementsText separator)

/-- `ParseArray` (options_type.h:990-1027), from the element after those already set. -/
def parseArray (cfg : ConfigOptions) (name : Bytes) :
    (n : ℕ) → Option Bytes → (Fin n → α) → Except Error (Fin n → α)
  | 0, none, old => .ok old
  | 0, some value, old =>
    if value = [] then .ok old
    else .error (.of2 .invalidArgument
      (ascii "Serialized value has more elements than array size") name)
  | n + 1, value, old =>
    match value with
    | none | some [] => .error (.of2 .invalidArgument
        (ascii "Serialized value has less elements than array size") name)
    | some (c :: s) =>
      match nextToken separator (c :: s) with
      | .error e => .error e
      | .ok (token, rest) =>
        match parseElement elem cfg name token (old 0) with
        | .error e => .error e
        | .ok a =>
          (parseArray cfg name n (rest.map (·.drop 1)) (Fin.tail old)).map
            (Fin.cons (a.getD (old 0)))

/-- `OptionTypeInfo::Array`. -/
def array (n : ℕ) : OptionTypeInfo (Fin n → α) where
  nested := false
  parseFunc cfg name value old := parseArray elem separator cfg name n (some value) old
  serialize cfg name v :=
    (serializeElements elem cfg name (List.ofFn v)).map (elementsText separator)

end Elements

/-! ### Maps of strings -/

/-- A `std::map<std::string, std::string>`. -/
@[ext]
structure StringMap where
  entries : List (Bytes × Bytes)
  sorted : (entries.map Prod.fst).Pairwise (· < ·)

def emplaceEntry (key value : Bytes) : List (Bytes × Bytes) → List (Bytes × Bytes)
  | [] => [(key, value)]
  | p :: rest =>
    if key < p.1 then (key, value) :: p :: rest
    else if key = p.1 then p :: rest
    else p :: emplaceEntry key value rest

theorem mem_keys_emplaceEntry {key value : Bytes} {m : List (Bytes × Bytes)} {k : Bytes}
    (h : k ∈ (emplaceEntry key value m).map Prod.fst) : k = key ∨ k ∈ m.map Prod.fst := by
  induction m with
  | nil => exact .inl (by simpa [emplaceEntry] using h)
  | cons p rest ih =>
    rw [emplaceEntry] at h
    split at h
    · simpa using h
    · split at h
      · exact .inr h
      · rcases List.mem_cons.mp h with rfl | hrest
        · exact .inr (by simp)
        · exact (ih hrest).imp_right fun hk => by simp [hk]

theorem emplaceEntry_sorted (key value : Bytes) {m : List (Bytes × Bytes)}
    (h : (m.map Prod.fst).Pairwise (· < ·)) :
    ((emplaceEntry key value m).map Prod.fst).Pairwise (· < ·) := by
  induction m with
  | nil => simp [emplaceEntry]
  | cons p rest ih =>
    obtain ⟨hp, hrest⟩ := List.pairwise_cons.mp h
    rw [emplaceEntry]
    split
    · next hlt =>
      refine List.pairwise_cons.mpr ⟨fun k hk => ?_, h⟩
      rcases List.mem_cons.mp hk with rfl | hk
      · exact hlt
      · exact hlt.trans (hp k hk)
    · next hge =>
      split
      · exact h
      · next hne =>
        refine List.pairwise_cons.mpr ⟨fun k hk => ?_, ih hrest⟩
        rcases mem_keys_emplaceEntry hk with rfl | hk
        · exact lt_of_le_of_ne (not_lt.mp hge) (Ne.symm hne)
        · exact hp k hk

def StringMap.empty : StringMap := ⟨[], List.Pairwise.nil⟩

def StringMap.emplace (m : StringMap) (key value : Bytes) : StringMap :=
  ⟨emplaceEntry key value m.entries, emplaceEntry_sorted key value m.sorted⟩

/-- `OptionTypeInfo::StringMap` (options_type.h:445-500) with its default separators.
In a token without `=` the whole token is key and value, as with `NDEBUG`. -/
def stringMap : OptionTypeInfo StringMap where
  nested := false
  parseFunc _ _ value _ :=
    tokenLoop (ch ';')
      (fun token m =>
        if token = [] then .ok m
        else
          let k := token.takeWhile (· ≠ ch '=')
          let v := if ch '=' ∈ token then (token.dropWhile (· ≠ ch '=')).drop 1 else token
          .ok (m.emplace (decodeHex k []) (decodeHex v [])))
      value StringMap.empty
  serialize _ _ m :=
    .ok (braces (m.entries.flatMap fun p =>
      hexString p.1 ++ ch '=' :: (hexString p.2 ++ [ch ';'])))

end OptionTypeInfo

/-! ### Type tables and structs -/

/-- An `unordered_map<std::string, OptionTypeInfo>` for an object with the fields `F`:
its keys are distinct, and every field has an entry. -/
structure TypeMap (F : Type) (Ty : F → Type) where
  fields : List F
  name : F → Bytes
  info : (f : F) → OptionTypeInfo (Ty f)
  complete : ∀ f, f ∈ fields
  distinct : (fields.map name).Nodup
  isName : ∀ f, IsName (name f)

namespace TypeMap

variable {F : Type} {Ty : F → Type} (t : TypeMap F Ty)

def lookup (key : Bytes) : Option F := t.fields.find? fun f => t.name f = key

/-- `OptionTypeInfo::Find` (options_helper.cc:1590-1613): the field and `elem_name`. -/
def find (optName : Bytes) : Option (F × Bytes) :=
  match t.lookup optName with
  | some f => some (f, optName)
  | none =>
    let short := optName.takeWhile (· ≠ ch '.')
    match optName.dropWhile (· ≠ ch '.') with
    | [] => none
    | _ :: rest =>
      if short = [] then none
      else
        match t.lookup short with
        | none => none
        | some f => if (t.info f).nested then some (f, rest) else none

def serializeFields (cfg : ConfigOptions) (obj : (f : F) → Ty f) :
    List (Bytes × F) → Except Error Bytes
  | [] => .ok []
  | (name, f) :: rest =>
    match (t.info f).serialize cfg name (obj f) with
    | .error e => .error e
    | .ok text =>
      (serializeFields cfg obj rest).map fun tail =>
        name ++ ch '=' :: (text ++ cfg.delimiter) ++ tail

/-- `OptionTypeInfo::SerializeType` (options_helper.cc:1248-1267). -/
def serializeType (cfg : ConfigOptions) (obj : (f : F) → Ty f) : Except Error Bytes :=
  t.serializeFields cfg obj (cfg.order (t.fields.map fun f => (t.name f, f)))

variable [DecidableEq F]

def parseField (cfg : ConfigOptions) (f : F) (elemName value : Bytes) (obj : (f : F) → Ty f) :
    Except Error ((f : F) → Ty f) :=
  ((t.info f).parse cfg elemName value (obj f)).map (Function.update obj f)

/-- The loop of `ParseType` (options_helper.cc:1123-1137); `collect`: the caller passed
an `unused` map. -/
def parseEntries (cfg : ConfigOptions) (collect : Bool) :
    OptsMap → ((f : F) → Ty f) → OptsMap → Except Error (((f : F) → Ty f) × OptsMap)
  | [], obj, unused => .ok (obj, unused)
  | (key, value) :: rest, obj, unused =>
    match t.find key with
    | some (f, elemName) =>
      match t.parseField cfg f elemName value obj with
      | .error e => .error e
      | .ok obj => parseEntries cfg collect rest obj unused
    | none =>
      if collect then parseEntries cfg collect rest obj (unused.assign key value)
      else if cfg.ignoreUnknownOptions then parseEntries cfg collect rest obj unused
      else .error (.of2 .notFound (ascii "Unrecognized option") key)

/-- `OptionTypeInfo::ParseType` (options_helper.cc:1105-1139). -/
def parseType (cfg : ConfigOptions) (collect : Bool) (opts : Bytes) (obj : (f : F) → Ty f) :
    Except Error (((f : F) → Ty f) × OptsMap) :=
  match stringToMap opts with
  | .error e => .error e
  | .ok m => t.parseEntries cfg collect (cfg.order m) obj []

/-- `OptionTypeInfo::ParseStruct` (options_helper.cc:1141-1179). -/
def parseStruct (structName : Bytes) (cfg : ConfigOptions) (optName value : Bytes)
    (obj : (f : F) → Ty f) : Except Error ((f : F) → Ty f) :=
  let unrecognized (path : Bytes) : Except Error ((f : F) → Ty f) :=
    if cfg.ignoreUnknownOptions then .ok obj
    else .error (.of2 .invalidArgument (ascii "Unrecognized option") path)
  if optName = structName ∨ (ch '.' :: structName) <:+ optName then
    match t.parseType cfg true value obj with
    | .error e => .error e
    | .ok (obj, unused) =>
      match cfg.order unused with
      | [] => .ok obj
      | (key, _) :: _ =>
        if cfg.ignoreUnknownOptions then .ok obj
        else .error (.of2 .invalidArgument (ascii "Unrecognized option")
          (structName ++ ch '.' :: key))
  else if (structName ++ [ch '.']) <+: optName then
    match t.find (optName.drop (structName.length + 1)) with
    | some (f, elemName) => t.parseField cfg f elemName value obj
    | none => unrecognized optName
  else
    match t.find optName with
    | some (f, elemName) => t.parseField cfg f elemName value obj
    | none => unrecognized (structName ++ ch '.' :: optName)

omit [DecidableEq F] in
/-- `OptionTypeInfo::SerializeStruct` (options_helper.cc:1269-1311). -/
def serializeStruct (structName : Bytes) (cfg : ConfigOptions) (optName : Bytes)
    (obj : (f : F) → Ty f) : Except Error Bytes :=
  let unrecognized : Except Error Bytes :=
    .error (.of2 .invalidArgument (ascii "Unrecognized option") optName)
  if structName <:+ optName then
    (t.serializeType cfg.embedded obj).map braces
  else if (structName ++ [ch '.']) <+: optName then
    match t.find (optName.drop (structName.length + 1)) with
    | some (f, elemName) => (t.info f).serialize cfg elemName (obj f)
    | none => unrecognized
  else
    match t.find optName with
    | some (f, elemName) => (t.info f).serialize cfg (optName ++ ch '.' :: elemName) (obj f)
    | none => unrecognized

/-- `OptionTypeInfo::Struct`. -/
def struct (structName : Bytes) : OptionTypeInfo ((f : F) → Ty f) where
  nested := true
  parseFunc := t.parseStruct structName
  serialize := t.serializeStruct structName

/-- A member with a table of its own, written by the lambdas of the tables for
`status` and `table_properties`. -/
def whole : OptionTypeInfo ((f : F) → Ty f) where
  nested := true
  parseFunc cfg _ value obj := (t.parseType cfg false value obj).map Prod.fst
  serialize cfg _ obj := (t.serializeType cfg obj).map braces

end TypeMap

end PnmCompaction.Options
