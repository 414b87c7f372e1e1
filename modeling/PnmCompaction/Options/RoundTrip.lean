import Mathlib.Data.Set.Image
import PnmCompaction.Options.TypeInfo

/-!
# What is written is read back

`RoundTrips` is the property of an option type that its containers need of their
members: whatever the writer's and the reader's configuration, the text of a value
is one token, and the token parses to the value. A container may drop something
(a vector the elements that are written as nothing) or keep something of the
reader's object, so the result is `after`, a function of the value and of the old
content.
-/

namespace PnmCompaction.Options

open PnmCompaction.Lib
open PnmCompaction.Lib.LittleEndian
open PnmCompaction.Worker (ascii)
open OptionTypeInfo

variable {α : Type}

/-- `text` is read as `token`, and `token` is parsed as `result`, a function of the
reader's object. -/
structure Carries (info : OptionTypeInfo α) (name text token : Bytes) (result : α → α) :
    Prop where
  reads : Token text token
  clean : Clean text
  parsed : ∀ r old, info.parse r name token old = .ok (result old)

def RoundTrips (info : OptionTypeInfo α) (name : Bytes) (after : α → α → α) : Prop :=
  ∀ (w : ConfigOptions) (v : α), w.delimiter = ascii ";" →
    ∃ text token, info.serialize w name v = .ok text ∧ Carries info name text token (after v)

/-- An element of a vector may reach its parser with its braces on. Without a `=` in
it, it is a single option. -/
structure CarriesElement (info : OptionTypeInfo α) (name text token : Bytes)
    (result : α → α) : Prop extends Carries info name text token result where
  parsedRaw : ∀ r old, info.parse r name text old = .ok (result old)
  shape : (∀ c ∈ text, c ∉ ascii "{};=:") ∨ ch '=' ∈ text

def ElementRoundTrips (info : OptionTypeInfo α) (name : Bytes) (blank : α → Bool)
    (after : α → α → α) : Prop :=
  ∀ (w : ConfigOptions) (v : α), w.delimiter = ascii ";" →
    ∃ text token, info.serialize w name v = .ok text ∧
      CarriesElement info name text token (after v) ∧ (text = [] ↔ blank v = true)

theorem ElementRoundTrips.roundTrips {info : OptionTypeInfo α} {name : Bytes}
    {blank : α → Bool} {after : α → α → α} (h : ElementRoundTrips info name blank after) :
    RoundTrips info name after := by
  intro w v hw
  obtain ⟨text, token, hser, hcarries, -⟩ := h w v hw
  exact ⟨text, token, hser, hcarries.toCarries⟩

theorem RoundTrips.congr {info : OptionTypeInfo α} {name : Bytes} {after after' : α → α → α}
    (h : RoundTrips info name after) (heq : ∀ v old, after v old = after' v old) :
    RoundTrips info name after' := by
  obtain rfl : after = after' := funext fun v => funext fun old => heq v old
  exact h

theorem parse_of_clean (info : OptionTypeInfo α) (r : ConfigOptions) (name : Bytes)
    {value : Bytes} (h : Clean value) (old : α) :
    info.parse r name value old = info.parseFunc r name value old := by
  rw [OptionTypeInfo.parse]
  split
  · rw [unescapeOptionString_of_clean h]
  · rfl

/-! ### Single options -/

theorem clean_of_plain {s : Bytes} (h : ∀ c ∈ s, isPlain c = true) : Clean s :=
  fun c hc => ⟨(isPlain_spec c (h c hc)).1, (isPlain_spec c (h c hc)).2.1⟩

theorem flat_of_plain {s : Bytes} (h : ∀ c ∈ s, isPlain c = true) :
    ∀ c ∈ s, c ∉ ascii "{};=:" := fun c hc => (isPlain_spec c (h c hc)).2.2

/-- The names of the type tables. -/
def plainName (name : Bytes) : Bool := !name.isEmpty && name.all isPlain

theorem endsKey_of_isPlain : ∀ c : Byte, isPlain c = true → endsKey c = false := by
  decide +kernel

theorem isName_of_plainName {name : Bytes} (h : plainName name = true) : IsName name := by
  rw [plainName, Bool.and_eq_true, List.all_eq_true] at h
  exact ⟨fun hnil => by simp [hnil] at h, clean_of_plain h.2,
    fun c hc => endsKey_of_isPlain c (h.2 c hc)⟩

theorem Token.of_flat {s : Bytes} (h : ∀ c ∈ s, c ∉ ascii "{};=:") : Token s s :=
  .flat fun c hc hm => h c hc (List.mem_append_left [ch ':'] hm)

theorem single_elementRoundTrips (k : OptionType) (name : Bytes) :
    ElementRoundTrips (single k) name k.blank fun v _ => v := by
  intro w v _
  obtain ⟨text, hwritten, hplain, hparsed, hblank⟩ := singleText_exists k v
  have hclean := clean_of_plain hplain
  have hparse : ∀ r old, (single k).parse r name text old = .ok v := by
    intro r old
    rw [parse_of_clean _ r name hclean, single]
    dsimp only
    rw [hparsed]
  refine ⟨text, text, ?_, ⟨⟨.of_flat (flat_of_plain hplain), hclean, hparse⟩, hparse,
    .inl (flat_of_plain hplain)⟩, hblank⟩
  rw [single]
  dsimp only
  rw [hwritten]

/-! ### The loop over the tokens -/

/-- `piece` is one token of a longer text, at its end or before a separator. -/
structure Chunk (separator : Byte) (piece token : Bytes) : Prop where
  nonempty : piece ≠ []
  inner : ∀ rest, nextToken separator (piece ++ separator :: rest) =
    .ok (token, some (separator :: rest))
  last : nextToken separator piece = .ok (token, none) ∨
    nextToken separator piece = .ok (token, some [])

theorem Chunk.flat {separator : Byte} {piece : Bytes} (hne : piece ≠ []) (hc : Clean piece)
    (hb : ch '{' ∉ piece) (hs : separator ∉ piece) (hblank : isspace separator = false)
    (hbrace : separator ≠ ch '{') : Chunk separator piece piece :=
  ⟨hne, nextToken_flat separator hb hs hc hblank hbrace,
    .inl (nextToken_flat_last separator hb hs hc)⟩

theorem Chunk.braced {separator : Byte} {body : Bytes}
    (hb : Braces.Balanced (ch '{') (ch '}') body) (hc : Clean body)
    (hblank : isspace separator = false) : Chunk separator (braces body) body := by
  refine ⟨List.cons_ne_nil _ _, fun rest => ?_, .inr ?_⟩
  · rw [braces, List.cons_append, List.append_assoc, List.singleton_append,
      nextToken_braced separator hb hc, List.dropWhile_cons_of_neg (by simp [hblank])]
    simp
  · rw [braces, nextToken_braced separator hb hc]
    rfl

section Loop

variable {σ β : Type} {separator : Byte} {f : Bytes → σ → Except Error σ} {piece token : Bytes}

theorem tokenLoop_inner (h : Chunk separator piece token) {acc acc' : σ}
    (hf : f token acc = .ok acc') (rest : Bytes) :
    tokenLoop separator f (piece ++ separator :: rest) acc =
      tokenLoop separator f rest acc' := by
  rw [tokenLoop, dif_neg (by simp)]
  split
  · next e he => rw [h.inner] at he; cases he
  · next tok r he =>
    rw [h.inner] at he
    cases he
    rw [hf]
    rfl

theorem tokenLoop_last (h : Chunk separator piece token) {acc acc' : σ}
    (hf : f token acc = .ok acc') : tokenLoop separator f piece acc = .ok acc' := by
  rw [tokenLoop, dif_neg h.nonempty]
  split
  · next e he => rcases h.last with hl | hl <;> rw [hl] at he <;> cases he
  · next tok r he =>
    rcases h.last with hl | hl <;> rw [hl] at he <;> cases he <;> rw [hf]
    exact tokenLoop.eq_def .. |>.trans (dif_pos rfl)

variable {us : List β} {pieceOf tokenOf : β → Bytes} {g : β → σ → σ}

/-- Elements with separators between them. -/
theorem tokenLoop_join (hchunk : ∀ u ∈ us, Chunk separator (pieceOf u) (tokenOf u))
    (hf : ∀ u ∈ us, ∀ acc, f (tokenOf u) acc = .ok (g u acc)) (acc : σ) :
    tokenLoop separator f (join separator (us.map pieceOf)) acc =
      .ok (us.foldl (fun acc u => g u acc) acc) := by
  induction us generalizing acc with
  | nil => rw [List.map_nil, join, tokenLoop, dif_pos rfl, List.foldl_nil]
  | cons u us ih =>
    have hu := hchunk u (by simp)
    have hfu := hf u (by simp) acc
    cases us with
    | nil => exact tokenLoop_last hu hfu
    | cons v vs =>
      rw [List.map_cons, List.map_cons, join, tokenLoop_inner hu hfu, ← List.map_cons,
        ih (fun x hx => hchunk x (List.mem_cons_of_mem u hx))
          (fun x hx => hf x (List.mem_cons_of_mem u hx)), List.foldl_cons (l := v :: vs)]

/-- Elements with a separator after each of them. -/
theorem tokenLoop_flatMap (hchunk : ∀ u ∈ us, Chunk separator (pieceOf u) (tokenOf u))
    (hf : ∀ u ∈ us, ∀ acc, f (tokenOf u) acc = .ok (g u acc)) (acc : σ) :
    tokenLoop separator f (us.flatMap fun u => pieceOf u ++ [separator]) acc =
      .ok (us.foldl (fun acc u => g u acc) acc) := by
  induction us generalizing acc with
  | nil => rw [List.flatMap_nil, tokenLoop, dif_pos rfl, List.foldl_nil]
  | cons u us ih =>
    rw [List.flatMap_cons, List.append_assoc, List.singleton_append,
      tokenLoop_inner (hchunk u (by simp)) (hf u (by simp) acc),
      ih (fun x hx => hchunk x (List.mem_cons_of_mem u hx))
        (fun x hx => hf x (List.mem_cons_of_mem u hx)), List.foldl_cons]

end Loop

/-! ### Vectors -/

theorem mem_join {separator c : Byte} {pieces : List Bytes} (h : c ∈ join separator pieces) :
    c = separator ∨ ∃ s ∈ pieces, c ∈ s := by
  fun_induction join separator pieces with
  | case1 => cases h
  | case2 s => exact .inr ⟨s, by simp, h⟩
  | case3 s t rest ih =>
    rcases List.mem_append.mp h with hs | hrest
    · exact .inr ⟨s, by simp, hs⟩
    · rcases List.mem_cons.mp hrest with rfl | hrest
      · exact .inl rfl
      · refine (ih hrest).imp_right ?_
        rintro ⟨x, hx, hc⟩
        exact ⟨x, List.mem_cons_of_mem s hx, hc⟩

theorem mem_join_of_mem {separator c : Byte} {pieces : List Bytes} {s : Bytes} (hs : s ∈ pieces)
    (hc : c ∈ s) : c ∈ join separator pieces := by
  fun_induction join separator pieces with
  | case1 => cases hs
  | case2 s' => rwa [List.mem_singleton.mp hs] at hc
  | case3 s' t rest ih =>
    rcases List.mem_cons.mp hs with rfl | hs
    · exact List.mem_append_left _ hc
    · exact List.mem_append_right _ (List.mem_cons_of_mem _ (ih hs))

theorem join_balanced {separator : Byte} (ho : separator ≠ ch '{') (hc : separator ≠ ch '}')
    {pieces : List Bytes} (h : ∀ s ∈ pieces, Braces.Balanced (ch '{') (ch '}') s) :
    Braces.Balanced (ch '{') (ch '}') (join separator pieces) := by
  fun_induction join separator pieces with
  | case1 => exact .nil
  | case2 s => exact h s (by simp)
  | case3 s t rest ih =>
    exact (h s (by simp)).append (.plain ho hc (ih fun x hx => h x (List.mem_cons_of_mem s hx)))

/-- The text of an element as the containers meet it. -/
structure ElementText (text : Bytes) : Prop where
  balanced : Braces.Balanced (ch '{') (ch '}') text
  clean : Clean text
  shape : (∀ c ∈ text, c ∉ ascii "{};=:") ∨ ch '=' ∈ text

theorem embrace_spec {separator : Byte} {text : Bytes} (h : ElementText text) :
    Braces.Balanced (ch '{') (ch '}') (embrace separator text) ∧
      Clean (embrace separator text) ∧
      ∀ c ∈ text, c ∈ embrace separator text := by
  unfold embrace
  split
  · exact ⟨h.balanced.wrap, h.clean.braces, fun c hc => by simp [braces, hc]⟩
  · exact ⟨h.balanced, h.clean, fun c hc => hc⟩

section Elements

variable {printed : List Bytes} (h : ∀ s ∈ printed, ElementText s)

include h

theorem elements_clean : Clean (join (ch ':') (printed.map (embrace (ch ':')))) := by
  intro c hc
  rcases mem_join hc with rfl | ⟨s, hs, hc⟩
  · exact ⟨by decide, by decide⟩
  · obtain ⟨text, htext, rfl⟩ := List.mem_map.mp hs
    exact (embrace_spec (h text htext)).2.1 c hc

theorem elements_balanced :
    Braces.Balanced (ch '{') (ch '}') (join (ch ':') (printed.map (embrace (ch ':')))) := by
  refine join_balanced (by decide) (by decide) fun s hs => ?_
  obtain ⟨text, htext, rfl⟩ := List.mem_map.mp hs
  exact (embrace_spec (h text htext)).1

/-- Without a `=` all elements are single options. -/
theorem elements_flat (hno : ch '=' ∉ join (ch ':') (printed.map (embrace (ch ':')))) :
    ∀ c ∈ join (ch ':') (printed.map (embrace (ch ':'))), c ∉ ascii "{};=" := by
  intro c hc
  rcases mem_join hc with rfl | ⟨s, hs, hc⟩
  · decide
  · obtain ⟨text, htext, rfl⟩ := List.mem_map.mp hs
    rcases (h text htext).shape with hflat | heq
    · have hcolon : ch ':' ∉ text := fun hm => hflat _ hm (by decide)
      rw [embrace, if_neg hcolon] at hc
      exact fun hm => hflat c hc (List.mem_append_left [ch ':'] hm)
    · exact absurd (mem_join_of_mem hs ((embrace_spec (h text htext)).2.2 _ heq)) hno

end Elements

/-- Whichever form the text of the elements takes, it is read as the elements with
separators between them. -/
theorem elementsText_reads {texts : List Bytes} (h : ∀ s ∈ texts, ElementText s) :
    Token (elementsText (ch ':') texts)
        (join (ch ':') ((texts.filter (· ≠ [])).map (embrace (ch ':')))) ∧
      Clean (elementsText (ch ':') texts) := by
  have hprinted : ∀ s ∈ texts.filter (· ≠ []), ElementText s := fun s hs =>
    h s (List.mem_of_mem_filter hs)
  have hclean := elements_clean hprinted
  unfold elementsText
  dsimp only
  split
  · exact ⟨.braced (elements_balanced hprinted), hclean.braces⟩
  · next hno =>
    have hflat := elements_flat hprinted hno
    rw [if_neg]
    · exact ⟨.flat hflat, hclean⟩
    · rintro ⟨-, hhead⟩
      exact hflat _ (List.mem_of_head? hhead) (by decide)

theorem elementText_of_mem {info : OptionTypeInfo α} {name : Bytes} {text token : α → Bytes}
    {result : α → α → α}
    (h : ∀ v, CarriesElement info name (text v) (token v) (result v)) (vs : List α) :
    ∀ s ∈ vs.map text, ElementText s := by
  intro s hs
  obtain ⟨v, -, rfl⟩ := List.mem_map.mp hs
  exact ⟨(h v).reads.balanced, (h v).clean, (h v).shape⟩

/-- An element between separators reaches its parser with or without its braces. -/
theorem CarriesElement.chunk {info : OptionTypeInfo α} {name text token : Bytes}
    {result : α → α} (h : CarriesElement info name text token result) (hne : text ≠ []) :
    ∃ piece, Chunk (ch ':') (embrace (ch ':') text) piece ∧
      ∀ r old, info.parse r name piece old = .ok (result old) := by
  rcases h.shape with hflat | heq
  · have hcolon : ch ':' ∉ text := fun hm => hflat _ hm (by decide)
    rw [embrace, if_neg hcolon]
    exact ⟨text, .flat hne h.clean (fun hm => hflat _ hm (by decide)) hcolon (by decide)
      (by decide), h.parsedRaw⟩
  · cases h.reads with
    | flat hf => exact absurd heq fun hm => hf _ hm (by decide)
    | braced hb =>
      unfold embrace
      split
      · exact ⟨_, .braced hb.wrap h.clean (by decide), h.parsedRaw⟩
      · exact ⟨_, .braced hb (h.reads.clean h.clean) (by decide), h.parsed⟩

theorem serializeElements_eq {elem : OptionTypeInfo α} {w : ConfigOptions} {name : Bytes}
    {text : α → Bytes} (h : ∀ v, elem.serialize w.embedded name v = .ok (text v)) (vs : List α) :
    serializeElements elem w name vs = .ok (vs.map text) := by
  induction vs with
  | nil => rfl
  | cons v vs ih =>
    rw [serializeElements, h, ih]
    rfl

theorem parseElement_eq {elem : OptionTypeInfo α} {name token : Bytes} {result : α → α}
    (h : ∀ r old, elem.parse r name token old = .ok (result old)) (r : ConfigOptions) (old : α) :
    parseElement elem r name token old = .ok (some (result old)) := by
  rw [parseElement, h]

variable {elem : OptionTypeInfo α} {name : Bytes} {blank : α → Bool} {after : α → α → α}

/-- A vector loses the elements that are written as nothing; the others are read into
fresh elements. -/
theorem vector_roundTrips (h : ElementRoundTrips elem name blank after) (elem₀ : α) :
    RoundTrips (vector elem (ch ':') elem₀) name
      fun vs _ => (vs.filter (!blank ·)).map (after · elem₀) := by
  intro w vs _
  choose text token hser hcarries hblank using fun v => h w.embedded v rfl
  choose! piece hchunk hparsed using fun v (hv : text v ≠ []) => (hcarries v).chunk hv
  have hprinted : (vs.map text).filter (· ≠ []) = (vs.filter (!blank ·)).map text := by
    rw [List.filter_map]
    congr 1
    refine List.filter_congr fun v _ => ?_
    cases hb : blank v <;> simp [hblank, hb]
  obtain ⟨hreads, hclean⟩ := elementsText_reads (elementText_of_mem hcarries vs)
  refine ⟨_, _, ?_, hreads, hclean, fun r old => ?_⟩
  · change (serializeElements elem w name vs).map _ = _
    rw [serializeElements_eq hser]
    rfl
  · have hne : ∀ v ∈ vs.filter (!blank ·), text v ≠ [] := by
      intro v hv
      have hv := (List.mem_filter.mp hv).2
      simpa [hblank] using hv
    have hloop : tokenLoop (ch ':')
        (fun token acc =>
          (parseElement elem r name token elem₀).map fun a => acc ++ a.toList)
        (join (ch ':') ((vs.filter (!blank ·)).map (embrace (ch ':') ∘ text))) [] =
        .ok ((vs.filter (!blank ·)).foldl (fun acc v => acc ++ [after v elem₀]) []) := by
      refine tokenLoop_join (fun v hv => hchunk v (hne v hv)) (fun v hv acc => ?_) []
      rw [parseElement_eq (hparsed v (hne v hv))]
      rfl
    rw [parse_of_clean _ r name (hreads.clean hclean), hprinted, List.map_map]
    rw [List.foldl_append_eq_append, List.nil_append, ← List.flatMap_def,
      ← List.map_eq_flatMap] at hloop
    exact hloop

/-! ### Arrays -/

theorem parseArray_step {r : ConfigOptions} {n : ℕ} {value piece : Bytes} {rest : Option Bytes}
    {old : Fin (n + 1) → α} {a : α} {tail : Fin n → α} (hne : value ≠ [])
    (hnext : nextToken (ch ':') value = .ok (piece, rest))
    (hhead : parseElement elem r name piece (old 0) = .ok (some a))
    (htail : parseArray elem (ch ':') r name n (rest.map (·.drop 1)) (Fin.tail old) = .ok tail) :
    parseArray elem (ch ':') r name (n + 1) (some value) old = .ok (Fin.cons a tail) := by
  obtain ⟨c, s, rfl⟩ := List.exists_cons_of_ne_nil hne
  rw [parseArray, hnext]
  dsimp only
  rw [hhead]
  dsimp only
  rw [htail]
  rfl

theorem parseArray_join {r : ConfigOptions} {n : ℕ} {text piece : Fin n → Bytes}
    (hchunk : ∀ i, Chunk (ch ':') (text i) (piece i)) {result : Fin n → α → α}
    (hparsed : ∀ i old, parseElement elem r name (piece i) old = .ok (some (result i old)))
    (old : Fin n → α) :
    parseArray elem (ch ':') r name n (some (join (ch ':') (List.ofFn text))) old =
      .ok fun i => result i (old i) := by
  induction n with
  | zero =>
    rw [List.ofFn_zero, join, parseArray, if_pos rfl]
    exact congrArg Except.ok (Subsingleton.elim _ _)
  | succ n ih =>
    have hrest : ∀ rest, (rest = none ∨ rest = some []) → n = 0 →
        parseArray elem (ch ':') r name n rest (Fin.tail old) =
          .ok fun i => result i.succ (Fin.tail old i) := by
      rintro rest (rfl | rfl) rfl <;> exact congrArg Except.ok (Subsingleton.elim _ _)
    have hcons : (fun i => result i (old i)) =
        (Fin.cons (result 0 (old 0)) fun i => result i.succ (Fin.tail old i) :
          Fin (n + 1) → α) := by
      funext i
      refine Fin.cases rfl (fun i => rfl) i
    have htail := ih (fun i => hchunk i.succ) (fun i => hparsed i.succ) (Fin.tail old)
    rw [hcons, List.ofFn_succ]
    cases n with
    | zero =>
      rw [List.ofFn_zero, join]
      rcases (hchunk 0).last with hlast | hlast
      · exact parseArray_step (hchunk 0).nonempty hlast (hparsed 0 _) (hrest _ (.inl rfl) rfl)
      · exact parseArray_step (hchunk 0).nonempty hlast (hparsed 0 _) (hrest _ (.inr rfl) rfl)
    | succ n =>
      rw [List.ofFn_succ, join]
      refine parseArray_step (by simp) ((hchunk 0).inner _) (hparsed 0 _) ?_
      rw [Option.map_some, List.drop_succ_cons, List.drop_zero]
      rwa [List.ofFn_succ] at htail

theorem array_roundTrips (h : ElementRoundTrips elem name blank after)
    (hblank : ∀ v, blank v = false) (n : ℕ) :
    RoundTrips (array elem (ch ':') n) name fun v old i => after (v i) (old i) := by
  intro w v _
  choose text token hser hcarries hempty using fun v => h w.embedded v rfl
  have hne : ∀ v, text v ≠ [] := fun v hv => by simpa [hblank] using (hempty v).mp hv
  choose piece hchunk hparsed using fun v => (hcarries v).chunk (hne v)
  have hprinted : ((List.ofFn v).map text).filter (· ≠ []) = (List.ofFn v).map text := by
    refine List.filter_eq_self.mpr fun s hs => ?_
    obtain ⟨a, -, rfl⟩ := List.mem_map.mp hs
    simp [hne a]
  obtain ⟨hreads, hclean⟩ := elementsText_reads (elementText_of_mem hcarries (List.ofFn v))
  refine ⟨_, _, ?_, hreads, hclean, fun r old => ?_⟩
  · change (serializeElements elem w name (List.ofFn v)).map _ = _
    rw [serializeElements_eq hser]
    rfl
  · rw [parse_of_clean _ r name (hreads.clean hclean), hprinted, List.map_map, List.map_ofFn]
    exact parseArray_join (fun i => hchunk (v i)) (fun i => parseElement_eq (hparsed (v i)) r) old

/-! ### Members that are read through another object -/

theorem RoundTrips.through {β : Type} {info : OptionTypeInfo β} {after : β → β → β}
    (h : RoundTrips info name after) (get start : α → β) (set : β → α → α) :
    RoundTrips (info.through get start set) name
      fun v old => set (after (get v) (start old)) old := by
  intro w v hw
  obtain ⟨text, token, hser, hcarries⟩ := h w (get v) hw
  refine ⟨text, token, hser, hcarries.reads, hcarries.clean, fun r old => ?_⟩
  have htoken := hcarries.reads.clean hcarries.clean
  have hparsed := hcarries.parsed r (start old)
  rw [parse_of_clean _ r name htoken] at hparsed ⊢
  change (info.parseFunc r name token (start old)).map _ = _
  rw [hparsed]
  rfl

end PnmCompaction.Options
