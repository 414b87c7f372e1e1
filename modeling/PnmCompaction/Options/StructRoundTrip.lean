import Mathlib.Data.Set.List
import Mathlib.Data.List.Perm.Basic
import PnmCompaction.Options.RoundTrip

/-!
# Maps and structs are read back

A struct is written as its fields in the order in which the writer's process walks
through the type table, and read in the order in which the reader's process walks
through the map that `StringToMap` made of the text. Both are arbitrary: what
carries the round trip is that the names are distinct, so that every field is
parsed once, from its own token.
-/

namespace PnmCompaction.Options

open PnmCompaction.Lib
open PnmCompaction.Lib.LittleEndian
open PnmCompaction.Worker (ascii)
open OptionTypeInfo

/-! ### Maps of strings -/

theorem emplaceEntry_append {key value : Bytes} {m : List (Bytes × Bytes)}
    (h : ∀ p ∈ m, p.1 < key) : emplaceEntry key value m = m ++ [(key, value)] := by
  induction m with
  | nil => rfl
  | cons p rest ih =>
    have hp := h p (by simp)
    rw [emplaceEntry, if_neg hp.not_gt, if_neg hp.ne', ih fun q hq => h q (by simp [hq])]
    rfl

/-- The entries of a map, put into an empty one in their order, make the map. -/
theorem foldl_emplaceEntry {entries m : List (Bytes × Bytes)}
    (h : ((m ++ entries).map Prod.fst).Pairwise (· < ·)) :
    entries.foldl (fun m p => emplaceEntry p.1 p.2 m) m = m ++ entries := by
  induction entries generalizing m with
  | nil => simp
  | cons p entries ih =>
    have hp : ∀ q ∈ m, q.1 < p.1 := by
      rw [List.map_append] at h
      exact fun q hq => (List.pairwise_append.mp h).2.2 q.1 (List.mem_map_of_mem hq) p.1 (by simp)
    rw [List.foldl_cons, emplaceEntry_append hp, ih (by simpa using h), List.append_assoc,
      List.singleton_append]

theorem foldl_emplace_entries (entries : List (Bytes × Bytes)) (m : StringMap) :
    (entries.foldl (fun m p => m.emplace p.1 p.2) m).entries =
      entries.foldl (fun m p => emplaceEntry p.1 p.2 m) m.entries := by
  induction entries generalizing m with
  | nil => rfl
  | cons p entries ih => rw [List.foldl_cons, ih, List.foldl_cons]; rfl

theorem foldl_emplace (m : StringMap) :
    m.entries.foldl (fun m p => m.emplace p.1 p.2) StringMap.empty = m := by
  have hentries : m.entries.foldl (fun m p => emplaceEntry p.1 p.2 m) [] = [] ++ m.entries :=
    foldl_emplaceEntry (by simpa using m.sorted)
  exact StringMap.ext ((foldl_emplace_entries m.entries .empty).trans hentries)

/-- One entry of a map as it is written, without the separator. -/
def entryText (p : Bytes × Bytes) : Bytes := hexString p.1 ++ ch '=' :: hexString p.2

theorem entryText_spec (p : Bytes × Bytes) :
    ∀ c ∈ entryText p, isspace c = false ∧ c ≠ ch '\\' ∧ c ∉ ascii "{};" := by
  have hhex : ∀ s : Bytes, ∀ c ∈ hexString s,
      isspace c = false ∧ c ≠ ch '\\' ∧ c ∉ ascii "{};" := by
    intro s c hc
    obtain ⟨hblank, hslash, hflat⟩ := isPlain_spec c (hexString_plain s c hc)
    exact ⟨hblank, hslash, fun hm => hflat (List.mem_append_left (ascii "=:") hm)⟩
  intro c hc
  rcases List.mem_append.mp hc with hc | hc
  · exact hhex p.1 c hc
  · rcases List.mem_cons.mp hc with rfl | hc
    · decide
    · exact hhex p.2 c hc

theorem entryText_chunk (p : Bytes × Bytes) : Chunk (ch ';') (entryText p) (entryText p) :=
  .flat (by simp [entryText]) (fun c hc => ⟨(entryText_spec p c hc).1, (entryText_spec p c hc).2.1⟩)
    (fun hm => (entryText_spec p _ hm).2.2 (by decide))
    (fun hm => (entryText_spec p _ hm).2.2 (by decide)) (by decide) (by decide)

theorem entryText_split (p : Bytes × Bytes) :
    (entryText p).takeWhile (· ≠ ch '=') = hexString p.1 ∧
      (entryText p).dropWhile (· ≠ ch '=') = ch '=' :: hexString p.2 := by
  have hkey : ∀ c ∈ hexString p.1, decide (c ≠ ch '=') = true := fun c hc =>
    decide_eq_true fun he => (isPlain_spec c (hexString_plain p.1 c hc)).2.2 (he ▸ by decide)
  rw [entryText, List.takeWhile_append_of_pos hkey, List.dropWhile_append_of_pos hkey,
    List.takeWhile_cons_of_neg (by simp), List.dropWhile_cons_of_neg (by simp), List.append_nil]
  exact ⟨rfl, rfl⟩

theorem stringMap_roundTrips (name : Bytes) : RoundTrips stringMap name fun m _ => m := by
  intro w m _
  have hbody : ∀ c ∈ m.entries.flatMap fun p => entryText p ++ [ch ';'],
      isspace c = false ∧ c ≠ ch '\\' ∧ c ∉ ascii "{}" := by
    intro c hc
    obtain ⟨p, -, hc⟩ := List.mem_flatMap.mp hc
    rcases List.mem_append.mp hc with hc | hc
    · obtain ⟨hblank, hslash, hflat⟩ := entryText_spec p c hc
      exact ⟨hblank, hslash, fun hm => hflat (List.mem_append_left (ascii ";") hm)⟩
    · rw [List.mem_singleton.mp hc]
      decide
  have hclean : Clean (m.entries.flatMap fun p => entryText p ++ [ch ';']) := fun c hc =>
    ⟨(hbody c hc).1, (hbody c hc).2.1⟩
  have hbalanced : Braces.Balanced (ch '{') (ch '}')
      (m.entries.flatMap fun p => entryText p ++ [ch ';']) := by
    refine .of_forall fun c hc => ⟨?_, ?_⟩ <;> rintro rfl <;> exact (hbody _ hc).2.2 (by decide)
  refine ⟨_, _, ?_, .braced hbalanced, hclean.braces, fun r old => ?_⟩
  · simp [stringMap, entryText]
  · rw [parse_of_clean _ r name hclean]
    refine (tokenLoop_flatMap (fun p _ => entryText_chunk p) (fun p _ acc => ?_) _).trans
      (congrArg Except.ok (foldl_emplace m))
    obtain ⟨hkey, hvalue⟩ := entryText_split p
    rw [if_neg (by simp [entryText]), if_pos (by simp [entryText]), hkey, hvalue,
      List.drop_succ_cons, List.drop_zero]
    dsimp only
    rw [decodeHex_hexString, decodeHex_hexString]

/-! ### Type tables -/

/-- A reordered image of a list is the image of a reordered list. -/
theorem exists_perm_map {β γ : Type} {g : β → γ} (hg : Function.Injective g) {l : List β}
    {l' : List γ} (h : l'.Perm (l.map g)) : ∃ l'' : List β, l''.Perm l ∧ l' = l''.map g := by
  have hrange : l' ∈ Set.range (List.map g) := by
    rw [Set.range_list_map]
    intro x hx
    obtain ⟨b, -, rfl⟩ := List.mem_map.mp (h.mem_iff.mp hx)
    exact ⟨b, rfl⟩
  obtain ⟨l'', rfl⟩ := hrange
  exact ⟨l'', (List.map_perm_map_iff hg).mp h, rfl⟩

namespace TypeMap

variable {F : Type} {Ty : F → Type} (t : TypeMap F Ty)

theorem name_injective : Function.Injective t.name := fun f g h =>
  List.inj_on_of_nodup_map t.distinct (t.complete f) (t.complete g) h

theorem find_name (f : F) : t.find (t.name f) = some (f, t.name f) := by
  have hlookup : t.lookup (t.name f) = some f := by
    unfold lookup
    cases hfind : t.fields.find? fun g => t.name g = t.name f with
    | none => exact absurd (List.find?_eq_none.mp hfind f (t.complete f)) (by simp)
    | some g =>
      have hname : t.name g = t.name f := by simpa using List.find?_some hfind
      rw [t.name_injective hname]
  rw [find, hlookup]

theorem serializeFields_eq {w : ConfigOptions} (hw : w.delimiter = ascii ";") {obj : (f : F) → Ty f}
    {field : F → WrittenField} (hname : ∀ f, (field f).name = t.name f)
    (hser : ∀ f, (t.info f).serialize w (t.name f) (obj f) = .ok (field f).text) (fs : List F) :
    t.serializeFields w obj (fs.map fun f => (t.name f, f)) =
      .ok ((fs.map field).flatMap WrittenField.print) := by
  induction fs with
  | nil => rfl
  | cons f fs ih =>
    rw [List.map_cons, serializeFields, hser]
    dsimp only
    rw [ih, List.map_cons, List.flatMap_cons, WrittenField.print, hname, hw]
    rfl

variable [DecidableEq F]

/-- Every field of `fs` is parsed once, the others keep what they had. -/
theorem parseEntries_eq {r : ConfigOptions} {collect : Bool} {token : F → Bytes}
    {result : (f : F) → Ty f → Ty f}
    (hparsed : ∀ f old, (t.info f).parse r (t.name f) (token f) old = .ok (result f old))
    {fs : List F} (hnodup : fs.Nodup) (obj : (f : F) → Ty f) (unused : OptsMap) :
    t.parseEntries r collect (fs.map fun f => (t.name f, token f)) obj unused =
      .ok (fun f => if f ∈ fs then result f (obj f) else obj f, unused) := by
  induction fs generalizing obj with
  | nil => simp [parseEntries]
  | cons f fs ih =>
    obtain ⟨hf, hnodup⟩ := List.nodup_cons.mp hnodup
    rw [List.map_cons, parseEntries, t.find_name]
    dsimp only
    rw [parseField, hparsed]
    dsimp only [Except.map]
    rw [ih hnodup]
    congr 2
    funext g
    by_cases hg : g = f
    · subst hg
      simp [hf]
    · simp [hg]

/-- The fields of an object as a text that gives the object back. -/
structure Written (after : (f : F) → Ty f → Ty f → Ty f) (obj : (f : F) → Ty f)
    (ws : List WrittenField) : Prop where
  nodup : (ws.map WrittenField.name).Nodup
  nonempty : Nonempty F → ws ≠ []
  parsed : ∀ r collect m old, m.Perm (ws.map fun f => (f.name, f.token)) →
    t.parseEntries r collect m old [] = .ok (fun f => after f (obj f) (old f), [])

variable {after : (f : F) → Ty f → Ty f → Ty f}
  (h : ∀ f, RoundTrips (t.info f) (t.name f) (after f))

include h

theorem serializeType_written {w : ConfigOptions} (hw : w.delimiter = ascii ";")
    (obj : (f : F) → Ty f) :
    ∃ ws, t.serializeType w obj = .ok (ws.flatMap WrittenField.print) ∧
      t.Written after obj ws := by
  choose text token hser hcarries using fun f => h f w (obj f) hw
  let field (f : F) : WrittenField :=
    ⟨t.name f, text f, token f, t.isName f, (hcarries f).reads, (hcarries f).clean⟩
  obtain ⟨fs, hperm, horder⟩ := exists_perm_map (fun f g hfg => congrArg Prod.snd hfg)
    (w.order_perm (t.fields.map fun f => (t.name f, f)))
  have hcomplete : ∀ f, f ∈ fs := fun f => hperm.mem_iff.mpr (t.complete f)
  have hnodup : fs.Nodup := hperm.nodup_iff.mpr (List.Nodup.of_map t.name t.distinct)
  refine ⟨fs.map field, ?_, ?_, ?_, ?_⟩
  · rw [serializeType, horder]
    exact t.serializeFields_eq hw (fun _ => rfl) hser fs
  · rw [List.map_map]
    exact hnodup.map t.name_injective
  · rintro ⟨f⟩
    simpa using List.ne_nil_of_mem (hcomplete f)
  · intro r collect m old hm
    rw [List.map_map] at hm
    obtain ⟨gs, hgs, rfl⟩ := exists_perm_map
      (fun f g hfg => t.name_injective (congrArg Prod.fst hfg)) hm
    refine (t.parseEntries_eq (fun f old => (hcarries f).parsed r old)
      (hgs.nodup_iff.mpr hnodup) old []).trans ?_
    simp [hgs.mem_iff, hcomplete]

omit h

variable {t} {obj : (f : F) → Ty f} {ws : List WrittenField}

theorem Written.parseType (hws : t.Written after obj ws) {text : Bytes}
    (htext : stringToMap text = .ok (ws.map fun f => (f.name, f.token))) (r : ConfigOptions)
    (collect : Bool) (old : (f : F) → Ty f) :
    t.parseType r collect text old = .ok (fun f => after f (obj f) (old f), []) := by
  rw [TypeMap.parseType, htext]
  exact hws.parsed r collect _ old (r.order_perm _)

theorem Written.parseStruct (hws : t.Written after obj ws) {text : Bytes}
    (htext : stringToMap text = .ok (ws.map fun f => (f.name, f.token))) (r : ConfigOptions)
    (name : Bytes) (old : (f : F) → Ty f) :
    t.parseStruct name r name text old = .ok fun f => after f (obj f) (old f) := by
  have hunused : r.order ([] : OptsMap) = [] := (r.order_perm []).eq_nil
  rw [TypeMap.parseStruct, if_pos (.inl rfl), hws.parseType htext]
  dsimp only
  rw [hunused]

variable (t)

include h

theorem whole_roundTrips (name : Bytes) :
    RoundTrips t.whole name fun v old f => after f (v f) (old f) := by
  intro w v hw
  obtain ⟨ws, hser, hws⟩ := t.serializeType_written h hw v
  refine ⟨_, _, ?_, .braced (fields_balanced ws), (fields_clean ws).braces, fun r old => ?_⟩
  · change (t.serializeType w v).map braces = _
    rw [hser]
    rfl
  · rw [parse_of_clean _ r name (fields_clean ws)]
    change (t.parseType r false _ old).map Prod.fst = _
    rw [hws.parseType (stringToMap_fields hws.nodup)]
    rfl

/-- A struct under its own name, also as an element of a vector. -/
theorem struct_elementRoundTrips [hne : Nonempty F] (name : Bytes) :
    ElementRoundTrips (t.struct name) name (fun _ => false)
      fun v old f => after f (v f) (old f) := by
  intro w v _
  obtain ⟨ws, hser, hws⟩ := t.serializeType_written h (w := w.embedded) rfl v
  have heq : ch '=' ∈ ws.flatMap WrittenField.print := by
    obtain ⟨f, rest, rfl⟩ := List.exists_cons_of_ne_nil (hws.nonempty hne)
    simp [WrittenField.print]
  refine ⟨_, _, ?_, ⟨⟨.braced (fields_balanced ws), (fields_clean ws).braces, fun r old => ?_⟩,
    fun r old => ?_, .inr (by simp [braces, heq])⟩, by simp [braces]⟩
  · change t.serializeStruct name w name v = _
    rw [serializeStruct, if_pos List.suffix_rfl, hser]
    rfl
  · rw [parse_of_clean _ r name (fields_clean ws)]
    exact hws.parseStruct (stringToMap_fields hws.nodup) r name old
  · rw [parse_of_clean _ r name (fields_clean ws).braces]
    exact hws.parseStruct (stringToMap_braced hws.nodup (hws.nonempty hne)) r name old

end TypeMap

end PnmCompaction.Options
