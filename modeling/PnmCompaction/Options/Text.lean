import Mathlib.Data.List.TakeWhile
import PnmCompaction.Lib.Braces
import PnmCompaction.Worker.HandleJob

/-!
# The options text (`rocksdb/options/options_helper.cc`, `rocksdb/util/string_util.cc`)

`CompactionServiceInput` and `CompactionServiceResult` travel between the primary
and the worker as options text: `name=value;name=value;`, where a value that
holds separators stands in braces. Here are the functions that take such a text
apart. The source walks over one string with positions; a position is here the
text from it on, and `std::string::npos` is `none`.
-/

namespace PnmCompaction.Options

open PnmCompaction.Lib
open PnmCompaction.Lib.LittleEndian
open PnmCompaction.Worker (ascii)

def ch (c : Char) : Byte := Fin.ofNat 256 c.toNat

inductive Code where
  | invalidArgument
  | notFound
  | notSupported
  deriving DecidableEq, Repr

/-- A `Status` that is not OK. -/
structure Error where
  code : Code
  message : Bytes
  deriving DecidableEq, Repr

def Error.of (code : Code) (msg : Bytes) : Error := ⟨code, msg⟩

/-- `Status(code, msg, msg2)` (util/status.cc:54-75). -/
def Error.of2 (code : Code) (msg msg2 : Bytes) : Error :=
  ⟨code, if msg2 = [] then msg else msg ++ ascii ": " ++ msg2⟩

def isspace (c : Byte) : Bool := c.val == 32 || (9 ≤ c.val && c.val ≤ 13)

def trimFront : Bytes → Bytes
  | [] => []
  | [c] => [c]
  | c :: d :: s => if isspace c then trimFront (d :: s) else c :: d :: s

/-- `trim` (util/string_util.cc:253-269): of a text of blanks only, one stays. -/
def trim (s : Bytes) : Bytes := (trimFront (trimFront s).reverse).reverse

theorem length_trimFront_le (s : Bytes) : (trimFront s).length ≤ s.length := by
  fun_induction trimFront s with
  | case1 => exact Nat.le_refl _
  | case2 => exact Nat.le_refl _
  | case3 c d s _ ih => exact Nat.le_succ_of_le ih
  | case4 => exact Nat.le_refl _

theorem length_trim_le (s : Bytes) : (trim s).length ≤ s.length := by
  have hback := length_trimFront_le (trimFront s).reverse
  rw [List.length_reverse] at hback
  rw [trim, List.length_reverse]
  exact Nat.le_trans hback (length_trimFront_le s)

/-- `UnescapeChar` (util/string_util.cc:196-206). -/
def unescapeChar (c : Byte) : Byte :=
  if c = ch 'r' then ch '\r' else if c = ch 'n' then ch '\n' else c

/-- `UnescapeOptionString` (util/string_util.cc:234-251); a backslash at the end is lost. -/
def unescapeOptionString : Bytes → Bytes
  | [] => []
  | [c] => if c = ch '\\' then [] else [c]
  | c :: d :: s =>
    if c = ch '\\' then unescapeChar d :: unescapeOptionString s
    else c :: unescapeOptionString (d :: s)

/-- `OptionTypeInfo::NextToken` (options/options_helper.cc:1003-1054): the token and
the text from the delimiter on. -/
def nextToken (delimiter : Byte) (opts : Bytes) : Except Error (Bytes × Option Bytes) :=
  match opts.dropWhile isspace with
  | [] => .ok ([], none)
  | c :: s =>
    if c = ch '{' then
      match Braces.matching (ch '{') (ch '}') 0 s with
      | none => .error (.of .invalidArgument (ascii "Mismatched curly braces for nested options"))
      | some (inside, after) =>
        match after.dropWhile isspace with
        | [] => .ok (trim inside, some [])
        | d :: rest =>
          if d = delimiter then .ok (trim inside, some (d :: rest))
          else .error (.of .invalidArgument (ascii "Unexpected chars after nested options"))
    else
      match (c :: s).dropWhile (· ≠ delimiter) with
      | [] => .ok (trim (c :: s), none)
      | d :: rest => .ok (trim ((c :: s).takeWhile (· ≠ delimiter)), some (d :: rest))

theorem length_dropWhile_le {α : Type*} (p : α → Bool) (s : List α) :
    (s.dropWhile p).length ≤ s.length :=
  (List.dropWhile_suffix p).length_le

/-- The text after the delimiter that ended the token is shorter. -/
theorem nextToken_rest {delimiter : Byte} {opts token rest : Bytes}
    (h : nextToken delimiter opts = .ok (token, some rest)) : rest.length ≤ opts.length := by
  have hskip := length_dropWhile_le isspace opts
  unfold nextToken at h
  split at h
  · cases h
  · next c s hs =>
    rw [hs, List.length_cons] at hskip
    split at h
    · split at h
      · cases h
      · next inside after hm =>
        have hlen := Braces.matching_length hm
        have hafter := length_dropWhile_le isspace after
        split at h
        · cases h
          exact Nat.zero_le _
        · next d r hr =>
          rw [hr] at hafter
          split at h
          · cases h
            omega
          · cases h
    · have hdrop := length_dropWhile_le (· ≠ delimiter) (c :: s)
      split at h
      · cases h
      · next d r hr =>
        cases h
        rw [hr, List.length_cons (a := c)] at hdrop
        omega

/-- The braces around the whole text (`StringToMap`, options_helper.cc:776-778). -/
def stripBraces (opts : Bytes) : Bytes :=
  if 2 < opts.length ∧ opts.head? = some (ch '{') ∧ opts.getLast? = some (ch '}') then
    stripBraces (trim (opts.drop 1).dropLast)
  else opts
termination_by opts.length
decreasing_by
  have hlen := length_trim_le (opts.drop 1).dropLast
  rw [List.length_dropLast, List.length_drop] at hlen
  omega

/-- An `unordered_map` of option names and values; its keys are distinct. -/
abbrev OptsMap := List (Bytes × Bytes)

/-- `(*opts_map)[key] = value`. -/
def OptsMap.assign (m : OptsMap) (key value : Bytes) : OptsMap :=
  if (m.map Prod.fst).contains key then m.map fun p => if p.1 = key then (key, value) else p
  else m ++ [(key, value)]

def endsKey (c : Byte) : Bool := (ascii "={};").contains c

/-- The loop of `StringToMap` (options_helper.cc:780-803). -/
def readPairs (opts : Bytes) (m : OptsMap) : Except Error OptsMap :=
  if opts = [] then .ok m
  else
    match _hend : opts.dropWhile (!endsKey ·) with
    | [] => .error (.of .invalidArgument (ascii "Mismatched key value pair, '=' expected"))
    | c :: after =>
      if c ≠ ch '=' then .error (.of .invalidArgument (ascii "Unexpected char in key"))
      else
        let key := trim (opts.takeWhile (!endsKey ·))
        if key = [] then .error (.of .invalidArgument (ascii "Empty key found"))
        else
          match _htok : nextToken (ch ';') after with
          | .error e => .error e
          | .ok (value, none) => .ok (m.assign key value)
          | .ok (value, some rest) => readPairs (rest.drop 1) (m.assign key value)
termination_by opts.length
decreasing_by
  have hafter := length_dropWhile_le (!endsKey ·) opts
  have hrest := nextToken_rest _htok
  rw [_hend, List.length_cons] at hafter
  rw [List.length_drop]
  omega

/-- `StringToMap` (options_helper.cc:767-808). -/
def stringToMap (opts : Bytes) : Except Error OptsMap := readPairs (stripBraces (trim opts)) []

example : stringToMap (ascii " a = 1; b={c=2;d={e=3}} ;f=") =
    .ok [(ascii "a", ascii "1"), (ascii "b", ascii "c=2;d={e=3}"), (ascii "f", [])] := by
  decide +kernel

/-! ### Texts without blanks -/

def Clean (s : Bytes) : Prop := ∀ c ∈ s, isspace c = false ∧ c ≠ ch '\\'

theorem trimFront_of_clean {s : Bytes} (h : Clean s) : trimFront s = s := by
  fun_cases trimFront s with
  | case1 => rfl
  | case2 => rfl
  | case3 c d s hc => exact absurd hc (by simp [(h c (by simp)).1])
  | case4 => rfl

theorem trim_of_clean {s : Bytes} (h : Clean s) : trim s = s := by
  have hrev : Clean s.reverse := fun c hc => h c (List.mem_reverse.mp hc)
  rw [trim, trimFront_of_clean h, trimFront_of_clean hrev, List.reverse_reverse]

theorem dropWhile_isspace_of_clean {s : Bytes} (h : Clean s) : s.dropWhile isspace = s := by
  cases s with
  | nil => rfl
  | cons c s => rw [List.dropWhile_cons_of_neg (by simp [(h c (by simp)).1])]

theorem unescapeOptionString_of_clean {s : Bytes} (h : Clean s) : unescapeOptionString s = s := by
  fun_induction unescapeOptionString s with
  | case1 => rfl
  | case2 => exact absurd rfl (h (ch '\\') (by simp)).2
  | case3 => rfl
  | case4 => exact absurd rfl (h (ch '\\') (by simp)).2
  | case5 c d s _ ih => rw [ih fun x hx => h x (List.mem_cons_of_mem c hx)]

def braces (s : Bytes) : Bytes := ch '{' :: (s ++ [ch '}'])

theorem mem_braces {s : Bytes} {c : Byte} (h : c ∈ braces s) : c = ch '{' ∨ c ∈ s ∨ c = ch '}' := by
  simpa [braces] using h

theorem Clean.braces {s : Bytes} (h : Clean s) : Clean (braces s) := by
  intro c hc
  rcases mem_braces hc with rfl | hs | rfl
  · exact ⟨by decide, by decide⟩
  · exact h c hs
  · exact ⟨by decide, by decide⟩

/-! ### One token -/

/-- A text and the token `NextToken` makes of it: the text itself, or what stands
between its braces. Colons may occur in both. -/
inductive Token : Bytes → Bytes → Prop
  | flat {text : Bytes} : (∀ c ∈ text, c ∉ ascii "{};=") → Token text text
  | braced {body : Bytes} : Braces.Balanced (ch '{') (ch '}') body → Token (braces body) body

theorem Token.balanced {text token : Bytes} (h : Token text token) :
    Braces.Balanced (ch '{') (ch '}') text := by
  cases h with
  | flat h =>
    refine .of_forall fun c hc => ⟨?_, ?_⟩ <;> rintro rfl <;> exact h _ hc (by decide)
  | braced h => exact h.wrap

theorem Token.clean {text token : Bytes} (h : Token text token) (hc : Clean text) :
    Clean token := by
  cases h with
  | flat => exact hc
  | braced => exact fun c hm => hc c (by simp [braces, hm])

theorem nextToken_braced (d : Byte) {body : Bytes} (hb : Braces.Balanced (ch '{') (ch '}') body)
    (hc : Clean body) (rest : Bytes) :
    nextToken d (ch '{' :: (body ++ ch '}' :: rest)) =
      match rest.dropWhile isspace with
      | [] => .ok (body, some [])
      | c :: rest =>
        if c = d then .ok (body, some (c :: rest))
        else .error (.of .invalidArgument (ascii "Unexpected chars after nested options")) := by
  unfold nextToken
  rw [List.dropWhile_cons_of_neg (by decide)]
  dsimp only
  rw [if_pos rfl, Braces.matching_closed (by decide) hb]
  dsimp only
  rw [trim_of_clean hc]

theorem nextToken_flat (d : Byte) {text : Bytes} (hb : ch '{' ∉ text) (hd : d ∉ text)
    (hc : Clean text) (hblank : isspace d = false) (hbrace : d ≠ ch '{') (rest : Bytes) :
    nextToken d (text ++ d :: rest) = .ok (text, some (d :: rest)) := by
  have hne : ∀ c ∈ text, decide (c ≠ d) = true := fun c hm =>
    decide_eq_true fun he => hd (he ▸ hm)
  have hdrop : (text ++ d :: rest).dropWhile (· ≠ d) = d :: rest := by
    rw [List.dropWhile_append_of_pos hne, List.dropWhile_cons_of_neg (by simp)]
  have htake : (text ++ d :: rest).takeWhile (· ≠ d) = text := by
    rw [List.takeWhile_append_of_pos hne, List.takeWhile_cons_of_neg (by simp), List.append_nil]
  cases htext : text with
  | nil =>
    subst htext
    unfold nextToken
    rw [List.nil_append, List.dropWhile_cons_of_neg (by simp [hblank])]
    dsimp only
    rw [if_neg hbrace, List.dropWhile_cons_of_neg (by simp), List.takeWhile_cons_of_neg (by simp)]
    rfl
  | cons c s =>
    rw [htext] at hdrop htake
    unfold nextToken
    rw [List.cons_append, List.dropWhile_cons_of_neg (by simp [(hc c (by simp [htext])).1])]
    dsimp only
    rw [if_neg (fun he => hb (by simp [htext, he])), ← List.cons_append, hdrop, htake]
    dsimp only
    rw [trim_of_clean (htext ▸ hc)]

theorem nextToken_flat_last (d : Byte) {text : Bytes} (hb : ch '{' ∉ text) (hd : d ∉ text)
    (hc : Clean text) : nextToken d text = .ok (text, none) := by
  unfold nextToken
  rw [dropWhile_isspace_of_clean hc]
  cases htext : text with
  | nil => rfl
  | cons c s =>
    have hdrop : (c :: s).dropWhile (· ≠ d) = [] := by
      rw [List.dropWhile_eq_nil_iff]
      exact fun x hx => decide_eq_true fun he => hd (htext ▸ he ▸ hx)
    dsimp only
    rw [if_neg (fun he => hb (by simp [htext, he])), hdrop]
    dsimp only
    rw [trim_of_clean (htext ▸ hc)]

theorem Token.nextToken {text token : Bytes} (h : Token text token) (hc : Clean text)
    (rest : Bytes) :
    nextToken (ch ';') (text ++ ch ';' :: rest) = .ok (token, some (ch ';' :: rest)) := by
  have htoken := h.clean hc
  cases h with
  | flat h =>
    exact nextToken_flat (ch ';') (fun hm => h _ hm (by decide)) (fun hm => h _ hm (by decide))
      hc (by decide) (by decide) rest
  | braced hb =>
    rw [braces, List.cons_append, List.append_assoc, List.singleton_append,
      nextToken_braced (ch ';') hb htoken, List.dropWhile_cons_of_neg (by decide)]
    rfl

/-! ### A text of fields -/

/-- A name as the type tables have them. -/
structure IsName (name : Bytes) : Prop where
  nonempty : name ≠ []
  clean : Clean name
  inKey : ∀ c ∈ name, endsKey c = false

/-- One field of a text as it is written, and the token that is read back. -/
structure WrittenField where
  name : Bytes
  text : Bytes
  token : Bytes
  isName : IsName name
  reads : Token text token
  clean : Clean text

def WrittenField.print (f : WrittenField) : Bytes := f.name ++ ch '=' :: (f.text ++ [ch ';'])

theorem readPairs_field (f : WrittenField) (rest : Bytes) (m : OptsMap) :
    readPairs (f.print ++ rest) m = readPairs rest (m.assign f.name f.token) := by
  have hin : ∀ c ∈ f.name, (!endsKey c) = true := fun c hc => by rw [f.isName.inKey c hc]; rfl
  have htext : f.print ++ rest = f.name ++ ch '=' :: (f.text ++ ch ';' :: rest) := by
    simp [WrittenField.print]
  have hdrop : (f.print ++ rest).dropWhile (!endsKey ·) =
      ch '=' :: (f.text ++ ch ';' :: rest) := by
    rw [htext, List.dropWhile_append_of_pos hin, List.dropWhile_cons_of_neg (by decide)]
  have htake : (f.print ++ rest).takeWhile (!endsKey ·) = f.name := by
    rw [htext, List.takeWhile_append_of_pos hin, List.takeWhile_cons_of_neg (by decide),
      List.append_nil]
  have hne : f.print ++ rest ≠ [] := by simp [htext]
  have hnext := f.reads.nextToken f.clean rest
  rw [readPairs, if_neg hne]
  split
  · next h => rw [hdrop] at h; cases h
  · next c after h =>
    rw [hdrop] at h
    obtain ⟨rfl, rfl⟩ := List.cons.inj h
    rw [if_neg (by simp), htake, trim_of_clean f.isName.clean]
    dsimp only
    rw [if_neg f.isName.nonempty]
    split
    · next e he => rw [hnext] at he; cases he
    · next value he => rw [hnext] at he; cases he
    · next value r he =>
      rw [hnext] at he
      cases he
      rfl

theorem OptsMap.assign_of_notMem {m : OptsMap} {key value : Bytes} (h : key ∉ m.map Prod.fst) :
    m.assign key value = m ++ [(key, value)] := by
  rw [OptsMap.assign, if_neg (by simpa using h)]

theorem readPairs_fields (fs : List WrittenField) (m : OptsMap)
    (h : (m.map Prod.fst ++ fs.map WrittenField.name).Nodup) :
    readPairs (fs.flatMap WrittenField.print) m =
      .ok (m ++ fs.map fun f => (f.name, f.token)) := by
  induction fs generalizing m with
  | nil => simp [readPairs]
  | cons f fs ih =>
    have hf : f.name ∉ m.map Prod.fst := by
      intro hm
      exact (List.nodup_append.mp h).2.2 f.name hm f.name (by simp) rfl
    rw [List.flatMap_cons, readPairs_field, OptsMap.assign_of_notMem hf, ih]
    · simp
    · simpa using h

theorem WrittenField.print_clean (f : WrittenField) : Clean f.print := by
  intro c hc
  simp only [WrittenField.print, List.mem_append, List.mem_cons, List.not_mem_nil, or_false] at hc
  rcases hc with hn | rfl | ht | rfl
  · exact f.isName.clean c hn
  · exact ⟨by decide, by decide⟩
  · exact f.clean c ht
  · exact ⟨by decide, by decide⟩

theorem WrittenField.print_balanced (f : WrittenField) :
    Braces.Balanced (ch '{') (ch '}') f.print := by
  have hname : Braces.Balanced (ch '{') (ch '}') f.name := by
    refine .of_forall fun c hc => ⟨?_, ?_⟩ <;> rintro rfl <;>
      exact absurd (f.isName.inKey _ hc) (by decide)
  exact hname.append (.plain (by decide) (by decide)
    (f.reads.balanced.append (.plain (by decide) (by decide) .nil)))

section Fields

variable (fs : List WrittenField)

theorem fields_clean : Clean (fs.flatMap WrittenField.print) := by
  intro c hc
  obtain ⟨f, -, hf⟩ := List.mem_flatMap.mp hc
  exact f.print_clean c hf

theorem fields_balanced : Braces.Balanced (ch '{') (ch '}') (fs.flatMap WrittenField.print) := by
  induction fs with
  | nil => exact .nil
  | cons f fs ih =>
    rw [List.flatMap_cons]
    exact f.print_balanced.append ih

theorem fields_head : (fs.flatMap WrittenField.print).head? ≠ some (ch '{') := by
  cases fs with
  | nil => simp
  | cons f fs =>
    obtain ⟨c, s, hs⟩ := List.exists_cons_of_ne_nil f.isName.nonempty
    rw [List.flatMap_cons, WrittenField.print, hs]
    intro h
    obtain rfl : c = ch '{' := by simpa using h
    exact absurd (f.isName.inKey (ch '{') (by simp [hs])) (by decide)

variable {fs} (h : (fs.map WrittenField.name).Nodup)

include h

theorem stringToMap_fields : stringToMap (fs.flatMap WrittenField.print) =
    .ok (fs.map fun f => (f.name, f.token)) := by
  rw [stringToMap, trim_of_clean (fields_clean fs), stripBraces,
    if_neg (fun hb => fields_head fs hb.2.1), readPairs_fields fs [] (by simpa using h),
    List.nil_append]

/-- The same text in braces, as `StringToMap` gets it for an element of a vector. -/
theorem stringToMap_braced (hne : fs ≠ []) :
    stringToMap (braces (fs.flatMap WrittenField.print)) =
      .ok (fs.map fun f => (f.name, f.token)) := by
  have hlen : 0 < (fs.flatMap WrittenField.print).length := by
    obtain ⟨f, rest, rfl⟩ := List.exists_cons_of_ne_nil hne
    simp [WrittenField.print]
  have hstrip := stringToMap_fields h
  rw [stringToMap, trim_of_clean (fields_clean fs)] at hstrip
  have hlong : 2 < (braces (fs.flatMap WrittenField.print)).length := by
    rw [braces, List.length_cons, List.length_append, List.length_singleton]
    omega
  have hlast : (braces (fs.flatMap WrittenField.print)).getLast? = some (ch '}') := by
    rw [braces, ← List.cons_append, List.getLast?_concat]
  rw [stringToMap, trim_of_clean (fields_clean fs).braces, stripBraces,
    if_pos ⟨hlong, rfl, hlast⟩, braces,
    List.drop_succ_cons, List.drop_zero, List.dropLast_concat, trim_of_clean (fields_clean fs)]
  exact hstrip

end Fields

end PnmCompaction.Options
