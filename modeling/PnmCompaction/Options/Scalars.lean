import PnmCompaction.Lib.Decimal
import PnmCompaction.Options.Text

/-!
# Single options (`ParseOptionHelper`, `SerializeSingleOptionHelper`)

Numbers are decimal numerals, strings are hexadecimal digits, and an enumeration
is the name its string map gives it. Only the option types of the compaction
service's tables are here. A parse function that throws is an `Except` whose error
is the exception's `what()`; the number functions of libstdc++ throw their name.
-/

namespace PnmCompaction.Options

open PnmCompaction.Lib
open PnmCompaction.Lib.LittleEndian
open PnmCompaction.Worker (ascii)

inductive OptionType where
  | boolean
  | int
  | uInt8T
  | uInt64T
  | sizeT
  | encodedString
  | temperature
  deriving DecidableEq, Repr

inductive Temperature where
  | unknown
  | hot
  | warm
  | cool
  | cold
  | ice
  deriving DecidableEq, Repr

abbrev OptionType.Val : OptionType → Type
  | .boolean => Bool
  | .int => Int32
  | .uInt8T => UInt8
  | .uInt64T => UInt64
  | .sizeT => UInt64
  | .encodedString => Bytes
  | .temperature => Temperature

/-! ### Numbers -/

def isdigit (c : Byte) : Bool := 48 ≤ c.val && c.val ≤ 57

/-- What `strtoull` and `strtol` take from a text, in base 10. -/
structure Scanned where
  negative : Bool
  magnitude : ℕ
  rest : Bytes
  deriving DecidableEq, Repr

def scanNumber (s : Bytes) : Option Scanned :=
  let t := s.dropWhile isspace
  let u := if t.head? = some (ch '-') ∨ t.head? = some (ch '+') then t.drop 1 else t
  let digits := u.takeWhile isdigit
  if digits = [] then none
  else some
    { negative := t.head? = some (ch '-')
      magnitude := Decimal.value (digits.map fun c => c.val - 48)
      rest := u.dropWhile isdigit }

def stoull (s : Bytes) : Except Bytes (UInt64 × Bytes) :=
  match scanNumber s with
  | none => .error (ascii "stoull")
  | some n =>
    if 2 ^ 64 ≤ n.magnitude then .error (ascii "stoull")
    else
      let v := UInt64.ofNat n.magnitude
      .ok (if n.negative then -v else v, n.rest)

def stoi (s : Bytes) : Except Bytes (Int32 × Bytes) :=
  match scanNumber s with
  | none => .error (ascii "stoi")
  | some n =>
    let v : ℤ := if n.negative then -(n.magnitude : ℤ) else n.magnitude
    if v < -2 ^ 31 ∨ 2 ^ 31 ≤ v then .error (ascii "stoi") else .ok (Int32.ofInt v, n.rest)

/-- The shift of the size suffix that follows a number. -/
def sizeSuffix : Bytes → ℕ
  | [] => 0
  | c :: _ =>
    if c = ch 'k' ∨ c = ch 'K' then 10
    else if c = ch 'm' ∨ c = ch 'M' then 20
    else if c = ch 'g' ∨ c = ch 'G' then 30
    else 0

/-- `ParseUint64` (util/string_util.cc:322-346); it alone knows `t`. -/
def parseUint64 (value : Bytes) : Except Bytes UInt64 :=
  match stoull value with
  | .error e => .error e
  | .ok (num, rest) =>
    let shift := if rest.head? = some (ch 't') ∨ rest.head? = some (ch 'T') then 40
      else sizeSuffix rest
    .ok (UInt64.ofNat (num.toNat <<< shift))

/-- `ParseUint8` (util/string_util.cc:294-301). -/
def parseUint8 (value : Bytes) : Except Bytes UInt8 :=
  match parseUint64 value with
  | .error e => .error e
  | .ok num => if num.toNat >>> 8 = 0 then .ok (UInt8.ofNat num.toNat) else .error value

/-- `ParseInt` (util/string_util.cc:374-396). -/
def parseInt (value : Bytes) : Except Bytes Int32 :=
  match stoi value with
  | .error e => .error e
  | .ok (num, rest) => .ok (Int32.ofInt (num.toInt * 2 ^ sizeSuffix rest))

/-- `ParseBoolean` (util/string_util.cc:285-292), called with an empty `type`. -/
def parseBoolean (value : Bytes) : Except Bytes Bool :=
  if value = ascii "true" ∨ value = ascii "1" then .ok true
  else if value = ascii "false" ∨ value = ascii "0" then .ok false
  else .error []

/-- `std::to_string` of an unsigned number. -/
def natToString (n : ℕ) : Bytes := (Decimal.numeral n).map fun d => Fin.ofNat 256 (48 + d)

def intToString (i : ℤ) : Bytes :=
  if i < 0 then ch '-' :: natToString i.natAbs else natToString i.natAbs

/-! ### Hexadecimal strings (util/slice.cc:245-323) -/

def toHex (v : ℕ) : Byte := if v ≤ 9 then Fin.ofNat 256 (48 + v) else Fin.ofNat 256 (65 + v - 10)

def fromHex (c : Byte) : Option ℕ :=
  let c := if 97 ≤ c.val ∧ c.val ≤ 102 then c.val - 32 else c.val
  if c < 48 ∨ (c > 57 ∧ (c < 65 ∨ c > 70)) then none
  else if c ≤ 57 then some (c - 48) else some (c - 65 + 10)

/-- `Slice::ToString(true)`. -/
def hexString (s : Bytes) : Bytes := s.flatMap fun c => [toHex (c.val / 16), toHex (c.val % 16)]

/-- The loop of `DecodeHex`: the bytes before the first digit that is none. -/
def decodeDigits : Bytes → Bytes
  | c :: d :: s =>
    match fromHex c, fromHex d with
    | some h, some l => Fin.ofNat 256 (16 * h + l) :: decodeDigits s
    | _, _ => []
  | _ => []

/-- What `Slice::DecodeHex` leaves in `*result`; its callers do not look at the
returned `bool`. -/
def decodeHex (s old : Bytes) : Bytes := if s.length % 2 ≠ 0 then old else decodeDigits s

/-! ### One option -/

def temperatureStringMap : List (Bytes × Temperature) :=
  [(ascii "kUnknown", .unknown), (ascii "kHot", .hot), (ascii "kWarm", .warm),
    (ascii "kCool", .cool), (ascii "kCold", .cold), (ascii "kIce", .ice)]

/-- `ParseOptionHelper` (options_helper.cc:590-664); `none`: it returns `false`. -/
def parseOptionHelper : (k : OptionType) → Bytes → k.Val → Except Bytes (Option k.Val)
  | .boolean, value, _ => (parseBoolean value).map some
  | .int, value, _ => (parseInt value).map some
  | .uInt8T, value, _ => (parseUint8 value).map some
  | .uInt64T, value, _ => (parseUint64 value).map some
  | .sizeT, value, _ => (parseUint64 value).map some
  | .encodedString, value, old => .ok (some (decodeHex value old))
  | .temperature, value, _ =>
    .ok ((temperatureStringMap.find? fun p => p.1 = value).map Prod.snd)

/-- `SerializeSingleOptionHelper` (options_helper.cc:666-753). -/
def serializeSingleOptionHelper : (k : OptionType) → k.Val → Option Bytes
  | .boolean, (b : Bool) => some (if b then ascii "true" else ascii "false")
  | .int, (i : Int32) => some (intToString i.toInt)
  | .uInt8T, (n : UInt8) => some (natToString n.toNat)
  | .uInt64T, (n : UInt64) => some (natToString n.toNat)
  | .sizeT, (n : UInt64) => some (natToString n.toNat)
  | .encodedString, (s : Bytes) => some (hexString s)
  | .temperature, (t : Temperature) =>
    (temperatureStringMap.find? fun p => p.2 = t).map Prod.fst

/-! ### What a single option is written as is read back -/

/-- The characters of names and of single options. -/
def isPlain (c : Byte) : Bool :=
  isdigit c || (65 ≤ c.val && c.val ≤ 90) || (97 ≤ c.val && c.val ≤ 122) ||
    c == ch '-' || c == ch '_'

theorem isPlain_spec : ∀ c : Byte, isPlain c = true →
    isspace c = false ∧ c ≠ ch '\\' ∧ c ∉ ascii "{};=:" := by
  decide +kernel

theorem numeral_digit : ∀ d : ℕ, d < 10 →
    isdigit (Fin.ofNat 256 (48 + d)) = true ∧ (Fin.ofNat 256 (48 + d) : Byte).val - 48 = d := by
  decide

theorem isdigit_of_mem_natToString {n : ℕ} {c : Byte} (h : c ∈ natToString n) :
    isdigit c = true := by
  obtain ⟨d, hd, rfl⟩ := List.mem_map.mp h
  exact (numeral_digit d (Decimal.lt_ten_of_mem_numeral hd)).1

theorem isdigit_spec : ∀ c : Byte, isdigit c = true →
    isspace c = false ∧ c ≠ ch '-' ∧ c ≠ ch '+' ∧ isPlain c = true := by
  decide +kernel

theorem natToString_ne_nil (n : ℕ) : natToString n ≠ [] :=
  fun h => Decimal.numeral_ne_nil n (List.map_eq_nil_iff.mp h)

theorem natToString_value (n : ℕ) :
    Decimal.value ((natToString n).map fun c => c.val - 48) = n := by
  have hdigits : (natToString n).map (fun c => c.val - 48) = (Decimal.numeral n).map id := by
    rw [natToString, List.map_map]
    exact List.map_congr_left fun d hd => (numeral_digit d (Decimal.lt_ten_of_mem_numeral hd)).2
  rw [hdigits, List.map_id, Decimal.value_numeral]

theorem natToString_split (n : ℕ) :
    (natToString n).takeWhile isdigit = natToString n ∧ (natToString n).dropWhile isdigit = [] :=
  ⟨List.takeWhile_eq_self_iff.mpr fun _ => isdigit_of_mem_natToString,
    List.dropWhile_eq_nil_iff.mpr fun _ => isdigit_of_mem_natToString⟩

theorem scanNumber_natToString (n : ℕ) : scanNumber (natToString n) = some ⟨false, n, []⟩ := by
  obtain ⟨c, s, hs⟩ := List.exists_cons_of_ne_nil (natToString_ne_nil n)
  obtain ⟨hblank, hminus, hplus, -⟩ :=
    isdigit_spec c (isdigit_of_mem_natToString (n := n) (by simp [hs]))
  have hskip : (natToString n).dropWhile isspace = natToString n := by
    rw [hs, List.dropWhile_cons_of_neg (by simp [hblank])]
  have hhead : (natToString n).head? = some c := by rw [hs]; rfl
  have hsign :
      ¬((natToString n).head? = some (ch '-') ∨ (natToString n).head? = some (ch '+')) := by
    rw [hhead]
    simp [hminus, hplus]
  rw [scanNumber, hskip, if_neg hsign, (natToString_split n).1, (natToString_split n).2,
    if_neg (natToString_ne_nil n), natToString_value, hhead]
  simp [hminus]

theorem scanNumber_minus (n : ℕ) :
    scanNumber (ch '-' :: natToString n) = some ⟨true, n, []⟩ := by
  have hskip : (ch '-' :: natToString n).dropWhile isspace = ch '-' :: natToString n :=
    List.dropWhile_cons_of_neg (by decide)
  have hsign : (ch '-' :: natToString n).head? = some (ch '-') ∨
      (ch '-' :: natToString n).head? = some (ch '+') := .inl rfl
  rw [scanNumber, hskip, if_pos hsign, List.drop_succ_cons, List.drop_zero, (natToString_split n).1,
    (natToString_split n).2, if_neg (natToString_ne_nil n), natToString_value]
  rfl

theorem parseUint64_natToString (n : UInt64) : parseUint64 (natToString n.toNat) = .ok n := by
  have hstoull : stoull (natToString n.toNat) = .ok (n, []) := by
    rw [stoull, scanNumber_natToString]
    dsimp only
    rw [if_neg (Nat.not_le.mpr n.toNat_lt), UInt64.ofNat_toNat]
    rfl
  rw [parseUint64, hstoull]
  simp [sizeSuffix]

theorem parseUint8_natToString (n : UInt8) : parseUint8 (natToString n.toNat) = .ok n := by
  have hlt : n.toNat < 2 ^ 8 := n.toNat_lt
  have hwide : (UInt64.ofNat n.toNat).toNat = n.toNat := by
    rw [UInt64.toNat_ofNat', Nat.mod_eq_of_lt (by omega)]
  have hparse := parseUint64_natToString (UInt64.ofNat n.toNat)
  rw [hwide] at hparse
  have hshift : n.toNat >>> 8 = 0 := Nat.shiftRight_eq_zero n.toNat 8 hlt
  rw [parseUint8, hparse]
  dsimp only
  rw [hwide, if_pos hshift, UInt8.ofNat_toNat]

theorem parseInt_intToString (i : Int32) : parseInt (intToString i.toInt) = .ok i := by
  have hlo : -2 ^ 31 ≤ i.toInt := i.le_toInt
  have hhi : i.toInt < 2 ^ 31 := i.toInt_lt
  have hscan : ∃ negative, scanNumber (intToString i.toInt) =
      some ⟨negative, i.toInt.natAbs, []⟩ ∧
        (if negative then -(i.toInt.natAbs : ℤ) else i.toInt.natAbs) = i.toInt := by
    unfold intToString
    split
    · next h => exact ⟨true, scanNumber_minus _, by rw [if_pos rfl]; omega⟩
    · next h => exact ⟨false, scanNumber_natToString _, by rw [if_neg (by decide)]; omega⟩
  obtain ⟨negative, hscan, hvalue⟩ := hscan
  have hstoi : stoi (intToString i.toInt) = .ok (i, []) := by
    rw [stoi, hscan]
    dsimp only
    rw [hvalue, if_neg (by omega), Int32.ofInt_toInt]
  rw [parseInt, hstoi]
  simp [sizeSuffix]

/-! Hexadecimal digits -/

theorem hex_digits : ∀ c : Byte,
    fromHex (toHex (c.val / 16)) = some (c.val / 16) ∧
      fromHex (toHex (c.val % 16)) = some (c.val % 16) ∧
      isPlain (toHex (c.val / 16)) = true ∧ isPlain (toHex (c.val % 16)) = true := by
  decide +kernel

theorem decodeDigits_hexString (s : Bytes) : decodeDigits (hexString s) = s := by
  induction s with
  | nil => rfl
  | cons c s ih =>
    obtain ⟨hhigh, hlow, -⟩ := hex_digits c
    change decodeDigits (toHex (c.val / 16) :: toHex (c.val % 16) :: hexString s) = c :: s
    rw [decodeDigits, hhigh, hlow]
    dsimp only
    rw [ih, Nat.div_add_mod, Fin.ofNat_val_eq_self]

theorem hexString_length (s : Bytes) : (hexString s).length = 2 * s.length := by
  induction s with
  | nil => rfl
  | cons c s ih =>
    rw [hexString, List.flatMap_cons, List.length_append, ← hexString, ih, List.length_cons]
    simp
    omega

theorem decodeHex_hexString (s old : Bytes) : decodeHex (hexString s) old = s := by
  rw [decodeHex, hexString_length, if_neg (by omega), decodeDigits_hexString]

/-- The options that are written as an empty text. -/
def OptionType.blank : (k : OptionType) → k.Val → Bool
  | .encodedString, (s : Bytes) => s.isEmpty
  | _, _ => false

/-- What `SerializeSingleOptionHelper` writes for `v`, seen by the reader. -/
structure SingleText (k : OptionType) (v : k.Val) (text : Bytes) : Prop where
  written : serializeSingleOptionHelper k v = some text
  plain : ∀ c ∈ text, isPlain c = true
  parsed : ∀ old, parseOptionHelper k text old = .ok (some v)
  blank : text = [] ↔ k.blank v = true

theorem natToString_plain (n : ℕ) : ∀ c ∈ natToString n, isPlain c = true :=
  fun c hc => (isdigit_spec c (isdigit_of_mem_natToString hc)).2.2.2

theorem intToString_plain (i : ℤ) : ∀ c ∈ intToString i, isPlain c = true := by
  unfold intToString
  split
  · rw [List.forall_mem_cons]
    exact ⟨by decide, natToString_plain _⟩
  · exact natToString_plain _

theorem intToString_ne_nil (i : ℤ) : intToString i ≠ [] := by
  unfold intToString
  split
  · exact List.cons_ne_nil _ _
  · exact natToString_ne_nil _

theorem hexString_plain (s : Bytes) : ∀ c ∈ hexString s, isPlain c = true := by
  intro c hc
  obtain ⟨x, -, hx⟩ := List.mem_flatMap.mp hc
  obtain ⟨-, -, hhigh, hlow⟩ := hex_digits x
  rcases List.mem_pair.mp hx with rfl | rfl
  · exact hhigh
  · exact hlow

theorem natToString_blank (n : ℕ) : natToString n = [] ↔ false = true :=
  ⟨fun h => absurd h (natToString_ne_nil n), fun h => nomatch h⟩

theorem singleText_exists (k : OptionType) (v : k.Val) : ∃ text, SingleText k v text := by
  cases k with
  | boolean =>
    cases v with
    | false => exact ⟨ascii "false", rfl, by decide +kernel, fun _ => rfl, by decide +kernel⟩
    | true => exact ⟨ascii "true", rfl, by decide +kernel, fun _ => rfl, by decide +kernel⟩
  | int =>
    refine ⟨intToString (Int32.toInt v), rfl, intToString_plain _, fun _ => ?_, ?_⟩
    · exact congrArg (Except.map some) (parseInt_intToString v)
    · exact ⟨fun h => absurd h (intToString_ne_nil _), fun h => nomatch h⟩
  | uInt8T =>
    exact ⟨natToString (UInt8.toNat v), rfl, natToString_plain _,
      fun _ => congrArg (Except.map some) (parseUint8_natToString v), natToString_blank _⟩
  | uInt64T | sizeT =>
    exact ⟨natToString (UInt64.toNat v), rfl, natToString_plain _,
      fun _ => congrArg (Except.map some) (parseUint64_natToString v), natToString_blank _⟩
  | encodedString =>
    refine ⟨hexString v, rfl, hexString_plain v, fun old => ?_, ?_⟩
    · exact congrArg (fun s => Except.ok (some s)) (decodeHex_hexString v old)
    · rw [← List.length_eq_zero_iff, hexString_length]
      simp [OptionType.blank]
  | temperature =>
    cases v <;> exact ⟨_, rfl, by decide +kernel, fun _ => rfl, by decide +kernel⟩

end PnmCompaction.Options
