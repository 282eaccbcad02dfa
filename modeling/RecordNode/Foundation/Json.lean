import Mathlib.Data.List.Basic
import Mathlib.Tactic.Common

/-! # JSON text

`JSON.parse`, `JSON.stringify` and the text codecs, as the language defines them.
A number stays its literal. A lone surrogate, which a Lean string cannot hold,
reads as U+FFFD, the character a decoder puts in place of malformed bytes. -/

namespace RecordNode
namespace Foundation

inductive Json where
  | null
  | bool (b : Bool)
  | number (literal : String)
  | string (s : String)
  | array (items : List Json)
  | object (fields : List (String × Json))

namespace Json

/-- A property of a parsed object; the last of two with one name wins. -/
def get : Json → String → Option Json
  | .object fields, name => fields.reverse.lookup name
  | _, _ => none

def asArray? : Json → Option (List Json)
  | .array items => some items
  | _ => none

def asString? : Json → Option String
  | .string s => some s
  | _ => none

/-! ## Writing -/

def hexDigit (n : ℕ) : Char := "0123456789abcdef".toList.getD n '0'

def escapeChar (c : Char) : List Char :=
  if c = '"' then ['\\', '"']
  else if c = '\\' then ['\\', '\\']
  else if c = '\x08' then ['\\', 'b']
  else if c = '\t' then ['\\', 't']
  else if c = '\n' then ['\\', 'n']
  else if c = '\x0c' then ['\\', 'f']
  else if c = '\r' then ['\\', 'r']
  else if c.toNat < 0x20 then ['\\', 'u', '0', '0', hexDigit (c.toNat / 16), hexDigit (c.toNat % 16)]
  else [c]

def quote (s : String) : List Char := '"' :: (s.toList.flatMap escapeChar ++ ['"'])

/-- Texts with a separator between them. -/
def joined (separator : Char) : List (List Char) → List Char
  | [] => []
  | [text] => text
  | text :: rest => text ++ separator :: joined separator rest

/-- The text of an array of these texts. -/
def arrayText (items : List (List Char)) : List Char := '[' :: (joined ',' items ++ [']'])

/-- The text of one property. -/
def fieldText (field : String × List Char) : List Char := quote field.1 ++ ':' :: field.2

/-- The text of an object of these properties. -/
def objectText (fields : List (String × List Char)) : List Char :=
  '\x7b' :: (joined ',' (fields.map fieldText) ++ ['\x7d'])

/-! ## Reading -/

def isSpace (c : Char) : Bool := c = ' ' || c = '\t' || c = '\n' || c = '\r'

def skipSpace (text : List Char) : List Char := text.dropWhile isSpace

def hexValue (c : Char) : Option ℕ :=
  if '0' ≤ c ∧ c ≤ '9' then some (c.toNat - '0'.toNat)
  else if 'a' ≤ c ∧ c ≤ 'f' then some (c.toNat - 'a'.toNat + 10)
  else if 'A' ≤ c ∧ c ≤ 'F' then some (c.toNat - 'A'.toNat + 10)
  else none

/-- The code unit of four hex digits. -/
def codeUnit (a b c d : Char) : Option ℕ := do
  return (((← hexValue a) * 16 + (← hexValue b)) * 16 + (← hexValue c)) * 16 + (← hexValue d)

def replacement : Char := Char.ofNat 0xfffd

def isHighSurrogate (u : ℕ) : Bool := 0xd800 ≤ u && u < 0xdc00

def isLowSurrogate (u : ℕ) : Bool := 0xdc00 ≤ u && u < 0xe000

/-- The character of a code point, or of a code unit without its other half. -/
def unitChar (u : ℕ) : Char :=
  if isHighSurrogate u || isLowSurrogate u then replacement else Char.ofNat u

def pairChar (high low : ℕ) : Char := Char.ofNat (0x10000 + (high - 0xd800) * 0x400 + (low - 0xdc00))

/-- The characters of code points and code units, each surrogate pair one character. -/
def combine : List ℕ → List Char
  | [] => []
  | [u] => [unitChar u]
  | u :: v :: rest =>
    if isHighSurrogate u && isLowSurrogate v then pairChar u v :: combine rest
    else unitChar u :: combine (v :: rest)

def simpleEscape (c : Char) : Option Char :=
  if c = '"' then some '"'
  else if c = '\\' then some '\\'
  else if c = '/' then some '/'
  else if c = 'b' then some '\x08'
  else if c = 'f' then some '\x0c'
  else if c = 'n' then some '\n'
  else if c = 'r' then some '\r'
  else if c = 't' then some '\t'
  else none

/-- The code points and escaped code units up to the closing quote, and what follows it. -/
def parsePoints : List Char → Option (List ℕ × List Char)
  | [] => none
  | '"' :: rest => some ([], rest)
  | '\\' :: 'u' :: a :: b :: c :: d :: rest => do
    let code ← codeUnit a b c d
    let tail ← parsePoints rest
    return (code :: tail.1, tail.2)
  | '\\' :: c :: rest => do
    let escaped ← simpleEscape c
    let tail ← parsePoints rest
    return (escaped.toNat :: tail.1, tail.2)
  | c :: rest =>
    if c.toNat < 0x20 || c = '\\' then none
    else (parsePoints rest).map fun tail => (c.toNat :: tail.1, tail.2)

/-- A string behind its opening quote. -/
def parseString (text : List Char) : Option (String × List Char) :=
  (parsePoints text).map fun read => (String.ofList (combine read.1), read.2)

def isDigit (c : Char) : Bool := '0' ≤ c && c ≤ '9'

/-- At least one digit. -/
def parseDigits (text : List Char) : Option (List Char × List Char) :=
  let digits := text.takeWhile isDigit
  if digits.isEmpty then none else some (digits, text.dropWhile isDigit)

/-- Digits without a leading zero, or the digit zero. -/
def parseInteger : List Char → Option (List Char × List Char)
  | '0' :: rest => some (['0'], rest)
  | text => parseDigits text

def parseFraction : List Char → Option (List Char × List Char)
  | '.' :: rest => (parseDigits rest).map fun read => ('.' :: read.1, read.2)
  | text => some ([], text)

def parseExponent : List Char → Option (List Char × List Char)
  | e :: rest =>
    if e = 'e' || e = 'E' then
      match rest with
      | sign :: digits =>
        if sign = '+' || sign = '-' then
          (parseDigits digits).map fun read => (e :: sign :: read.1, read.2)
        else (parseDigits rest).map fun read => (e :: read.1, read.2)
      | [] => none
    else some ([], e :: rest)
  | [] => some ([], [])

def parseNumber (text : List Char) : Option (Json × List Char) := do
  let sign := text.takeWhile (· = '-') |>.take 1
  let integer ← parseInteger (text.drop sign.length)
  let fraction ← parseFraction integer.2
  let exponent ← parseExponent fraction.2
  return (.number (String.ofList (sign ++ integer.1 ++ fraction.1 ++ exponent.1)), exponent.2)

mutual

/-- One value and what follows it. No character is read by more than two calls inside one another,
so fuel past twice the text's length never runs out. -/
def parseValue : ℕ → List Char → Option (Json × List Char)
  | 0, _ => none
  | fuel + 1, text =>
    match skipSpace text with
    | 'n' :: 'u' :: 'l' :: 'l' :: rest => some (.null, rest)
    | 't' :: 'r' :: 'u' :: 'e' :: rest => some (.bool true, rest)
    | 'f' :: 'a' :: 'l' :: 's' :: 'e' :: rest => some (.bool false, rest)
    | '"' :: rest => (parseString rest).map fun read => (.string read.1, read.2)
    | '[' :: rest =>
      match skipSpace rest with
      | ']' :: rest => some (.array [], rest)
      | rest => (parseItems fuel rest).map fun read => (.array read.1, read.2)
    | '\x7b' :: rest =>
      match skipSpace rest with
      | '\x7d' :: rest => some (.object [], rest)
      | rest => (parseFields fuel rest).map fun read => (.object read.1, read.2)
    | text => parseNumber text

/-- The items of an array, up to its closing bracket. -/
def parseItems : ℕ → List Char → Option (List Json × List Char)
  | 0, _ => none
  | fuel + 1, text => do
    let item ← parseValue fuel text
    match skipSpace item.2 with
    | ',' :: rest => (parseItems fuel rest).map fun read => (item.1 :: read.1, read.2)
    | ']' :: rest => some ([item.1], rest)
    | _ => none

/-- The properties of an object, up to its closing brace. -/
def parseFields : ℕ → List Char → Option (List (String × Json) × List Char)
  | 0, _ => none
  | fuel + 1, text =>
    match skipSpace text with
    | '"' :: rest => do
      let name ← parseString rest
      match skipSpace name.2 with
      | ':' :: rest =>
        let value ← parseValue fuel rest
        match skipSpace value.2 with
        | ',' :: rest => (parseFields fuel rest).map fun read => ((name.1, value.1) :: read.1, read.2)
        | '\x7d' :: rest => some ([(name.1, value.1)], rest)
        | _ => none
      | _ => none
    | _ => none

end

/-- `JSON.parse`, `none` where it throws. -/
def parse (text : List Char) : Option Json := do
  let read ← parseValue (2 * text.length + 1) text
  if (skipSpace read.2).isEmpty then return read.1 else none

/-! ## What is written is read back -/

theorem hexValue_hexDigit : ∀ n < 16, hexValue (hexDigit n) = some n := by decide

theorem codeUnit_control {n : ℕ} (hn : n < 0x20) :
    codeUnit '0' '0' (hexDigit (n / 16)) (hexDigit (n % 16)) = some n := by
  have h0 : hexValue '0' = some 0 := by decide
  have h1 := hexValue_hexDigit (n / 16) (by omega)
  have h2 := hexValue_hexDigit (n % 16) (by omega)
  simp only [codeUnit, h0, h1, h2, Option.bind_eq_bind, Option.bind_some, Option.pure_def, Option.some_inj]
  omega

theorem parsePoints_simpleEscape {e c : Char} (he : simpleEscape e = some c) (text : List Char) :
    parsePoints ('\\' :: e :: text) = (parsePoints text).map fun tail => (c.toNat :: tail.1, tail.2) := by
  rw [parsePoints]
  · simp [he, Option.map_eq_bind, Function.comp_def]
  · intro _ _ _ _ _ h
    subst h
    simp [simpleEscape] at he

/-- An escaped character reads as its code point. -/
theorem parsePoints_escapeChar (c : Char) (text : List Char) :
    parsePoints (escapeChar c ++ text) = (parsePoints text).map fun tail => (c.toNat :: tail.1, tail.2) := by
  unfold escapeChar
  split_ifs with h1 h2 h3 h4 h5 h6 h7 h8
  · subst h1
    exact parsePoints_simpleEscape (by decide) text
  · subst h2
    exact parsePoints_simpleEscape (by decide) text
  · subst h3
    exact parsePoints_simpleEscape (by decide) text
  · subst h4
    exact parsePoints_simpleEscape (by decide) text
  · subst h5
    exact parsePoints_simpleEscape (by decide) text
  · subst h6
    exact parsePoints_simpleEscape (by decide) text
  · subst h7
    exact parsePoints_simpleEscape (by decide) text
  · simp [parsePoints, codeUnit_control h8, Option.map_eq_bind, Function.comp_def]
  · rw [List.singleton_append, parsePoints]
    · simp [h2, h8]
    · exact h1
    · exact fun _ _ _ _ _ h => absurd h h2
    · exact fun _ _ h => absurd h h2

theorem parsePoints_escaped (chars text : List Char) :
    parsePoints (chars.flatMap escapeChar ++ '"' :: text) = some (chars.map Char.toNat, text) := by
  induction chars with
  | nil => simp [parsePoints]
  | cons c chars ih =>
    rw [List.flatMap_cons, List.append_assoc, parsePoints_escapeChar, ih]
    rfl

/-- No character is half of a surrogate pair. -/
theorem not_surrogate (c : Char) : isHighSurrogate c.toNat = false ∧ isLowSurrogate c.toNat = false := by
  have h : c.toNat < 0xd800 ∨ 0xdfff < c.toNat ∧ c.toNat < 0x110000 := c.valid
  simp only [isHighSurrogate, isLowSurrogate, Bool.and_eq_false_iff, decide_eq_false_iff_not]
  omega

theorem unitChar_toNat (c : Char) : unitChar c.toNat = c := by
  obtain ⟨h1, h2⟩ := not_surrogate c
  simp [unitChar, h1, h2]

theorem combine_map_toNat (chars : List Char) : combine (chars.map Char.toNat) = chars := by
  induction chars with
  | nil => rfl
  | cons c chars ih =>
    cases chars with
    | nil => simp [combine, unitChar_toNat]
    | cons d chars =>
      simp only [List.map_cons] at ih ⊢
      rw [combine, (not_surrogate c).1, ih, unitChar_toNat]
      simp

theorem parseString_quote (s : String) (text : List Char) :
    parseString (s.toList.flatMap escapeChar ++ '"' :: text) = some (s, text) := by
  simp [parseString, parsePoints_escaped, combine_map_toNat]

/-- What may follow a value: a separator, a closing bracket, or nothing. -/
def Ends (rest : List Char) : Prop := ∀ c ∈ rest.head?, c = ',' ∨ c = ']' ∨ c = '\x7d'

theorem ends_nil : Ends [] := by simp [Ends]

theorem ends_cons {c : Char} (hc : c = ',' ∨ c = ']' ∨ c = '\x7d') (rest : List Char) : Ends (c :: rest) := by
  simpa [Ends] using hc

/-- From this fuel on the text reads as the value, wherever it ends. -/
def Reads (least : ℕ) (text : List Char) (v : Json) : Prop :=
  ∀ fuel ≥ least, ∀ rest, Ends rest → parseValue fuel (text ++ rest) = some (v, rest)

theorem Reads.mono {least more : ℕ} {text : List Char} {v : Json} (h : Reads least text v)
    (hle : least ≤ more) : Reads more text v :=
  fun fuel hf rest => h fuel (Nat.le_trans hle hf) rest

theorem skipSpace_cons {c : Char} (hc : isSpace c = false) (text : List Char) : skipSpace (c :: text) = c :: text := by
  simp [skipSpace, hc]

theorem skipSpace_skipSpace (text : List Char) : skipSpace (skipSpace text) = skipSpace text := by
  induction text with
  | nil => rfl
  | cons c text ih =>
    cases hc : isSpace c with
    | true => simpa [skipSpace, hc] using ih
    | false => rw [skipSpace_cons hc, skipSpace_cons hc]

theorem parseValue_skipSpace (fuel : ℕ) (text : List Char) : parseValue fuel (skipSpace text) = parseValue fuel text := by
  cases fuel with
  | zero => simp only [parseValue]
  | succ fuel => simp only [parseValue, skipSpace_skipSpace]

theorem parseItems_skipSpace (fuel : ℕ) (text : List Char) : parseItems fuel (skipSpace text) = parseItems fuel text := by
  cases fuel with
  | zero => simp only [parseItems]
  | succ fuel => simp only [parseItems, parseValue_skipSpace]

theorem parseValue_closing (fuel : ℕ) (text : List Char) {rest : List Char} (h : skipSpace text = ']' :: rest) :
    parseValue fuel text = none := by
  cases fuel with
  | zero => simp only [parseValue]
  | succ fuel =>
    simp only [parseValue, h]
    rfl

theorem reads_quote (s : String) : Reads 1 (quote s) (.string s) := by
  intro fuel hf rest _
  obtain ⟨fuel, rfl⟩ := Nat.exists_eq_add_of_le' hf
  rw [parseValue, quote, List.cons_append, skipSpace_cons (by decide), List.append_assoc]
  simp [parseString_quote]

theorem reads_true : Reads 1 "true".toList (.bool true) := by
  intro fuel hf rest _
  obtain ⟨fuel, rfl⟩ := Nat.exists_eq_add_of_le' hf
  rw [parseValue]
  rfl

theorem joined_cons_cons (separator : Char) (text next : List Char) (rest : List (List Char)) :
    joined separator (text :: next :: rest) = text ++ separator :: joined separator (next :: rest) := rfl

theorem parseItems_joined {least : ℕ} {texts : List (List Char)} {items : List Json}
    (h : List.Forall₂ (Reads least) texts items) (hne : texts ≠ []) (rest : List Char) (fuel : ℕ)
    (hf : least + texts.length ≤ fuel) :
    parseItems fuel (joined ',' texts ++ ']' :: rest) = some (items, rest) := by
  induction h generalizing fuel with
  | nil => exact absurd rfl hne
  | @cons text item texts items hread htail ih =>
    obtain ⟨fuel, rfl⟩ : ∃ n, fuel = n + 1 := ⟨fuel - 1, by simp at hf; omega⟩
    have hle : least ≤ fuel := by simp at hf; omega
    cases texts with
    | nil =>
      cases htail
      simp only [joined, parseItems, hread fuel hle _ (ends_cons (.inr (.inl rfl)) rest), Option.bind_eq_bind, Option.bind_some]
      rfl
    | cons next texts =>
      rw [joined_cons_cons, List.append_assoc, List.cons_append, parseItems, hread fuel hle _ (ends_cons (.inl rfl) _)]
      have hrest := ih (by simp) fuel (by simp only [List.length_cons] at hf ⊢; omega)
      simp only [Option.bind_eq_bind, Option.bind_some]
      rw [skipSpace_cons (by decide)]
      simp [hrest]

theorem reads_arrayText {least : ℕ} {texts : List (List Char)} {items : List Json}
    (h : List.Forall₂ (Reads least) texts items) :
    Reads (least + texts.length + 1) (arrayText texts) (.array items) := by
  intro fuel hf rest _
  obtain ⟨fuel, rfl⟩ : ∃ n, fuel = n + 1 := ⟨fuel - 1, by omega⟩
  rw [parseValue, arrayText, List.cons_append, skipSpace_cons (by decide), List.append_assoc]
  simp only [List.cons_append, List.nil_append]
  cases h with
  | nil => rfl
  | @cons text item texts items hread htail =>
    have hitems := parseItems_joined (.cons hread htail) (by simp) rest fuel (by omega)
    generalize hbody : joined ',' (text :: texts) ++ ']' :: rest = body at hitems
    have hopen : ∀ r, skipSpace body ≠ ']' :: r := by
      intro r hr
      cases fuel with
      | zero => simp [parseItems] at hitems
      | succ fuel =>
        rw [parseItems, parseValue_closing fuel body hr] at hitems
        simp at hitems
    split
    · rename_i r hr
      exact absurd hr (hopen r)
    · rw [parseItems_skipSpace, hitems]
      rfl

/-- The text of the property's value reads as this value. -/
def ReadsField (least : ℕ) (field : String × List Char) (read : String × Json) : Prop :=
  field.1 = read.1 ∧ Reads least field.2 read.2

/-- The first property is read, and the text goes on behind it. -/
theorem parseFields_fieldText {least fuel : ℕ} {field : String × List Char} {read : String × Json}
    (h : ReadsField least field read) (hf : least ≤ fuel) {c : Char} (hc : c = ',' ∨ c = '\x7d') (rest : List Char) :
    parseFields (fuel + 1) (fieldText field ++ c :: rest) =
      match c :: rest with
      | ',' :: rest => (parseFields fuel rest).map fun tail => (read :: tail.1, tail.2)
      | '\x7d' :: rest => some ([read], rest)
      | _ => none := by
  obtain ⟨name, text⟩ := field
  obtain ⟨_, v⟩ := read
  obtain ⟨rfl, hread⟩ := h
  have hquote : fieldText (name, text) ++ c :: rest =
      '"' :: (name.toList.flatMap escapeChar ++ '"' :: ':' :: (text ++ c :: rest)) := by
    simp [fieldText, quote]
  rw [hquote, parseFields, skipSpace_cons (by decide)]
  simp only [parseString_quote, Option.bind_eq_bind, Option.bind_some]
  rw [skipSpace_cons (by decide)]
  have hspace : isSpace c = false := by rcases hc with rfl | rfl <;> decide
  simp only [hread fuel hf (c :: rest) (ends_cons (by tauto) rest), Option.bind_some]
  rw [skipSpace_cons hspace]

theorem parseFields_joined {least : ℕ} {fields : List (String × List Char)} {reads : List (String × Json)}
    (h : List.Forall₂ (ReadsField least) fields reads) (hne : fields ≠ []) (rest : List Char) (fuel : ℕ)
    (hf : least + fields.length ≤ fuel) :
    parseFields fuel (joined ',' (fields.map fieldText) ++ '\x7d' :: rest) = some (reads, rest) := by
  induction h generalizing fuel with
  | nil => exact absurd rfl hne
  | @cons field read fields reads hread htail ih =>
    obtain ⟨fuel, rfl⟩ : ∃ n, fuel = n + 1 := ⟨fuel - 1, by simp at hf; omega⟩
    have hle : least ≤ fuel := by simp at hf; omega
    cases fields with
    | nil =>
      cases htail
      exact parseFields_fieldText hread hle (.inr rfl) rest
    | cons next fields =>
      have hrest := ih (by simp) fuel (by simp only [List.length_cons] at hf ⊢; omega)
      simp only [List.map_cons] at hrest ⊢
      rw [joined_cons_cons, List.append_assoc, List.cons_append, parseFields_fieldText hread hle (.inl rfl)]
      simp [hrest]

theorem reads_objectText {least : ℕ} {fields : List (String × List Char)} {reads : List (String × Json)}
    (h : List.Forall₂ (ReadsField least) fields reads) :
    Reads (least + fields.length + 1) (objectText fields) (.object reads) := by
  intro fuel hf rest _
  obtain ⟨fuel, rfl⟩ : ∃ n, fuel = n + 1 := ⟨fuel - 1, by omega⟩
  rw [parseValue, objectText, List.cons_append, skipSpace_cons (by decide), List.append_assoc]
  simp only [List.cons_append, List.nil_append]
  cases h with
  | nil => rfl
  | @cons field read fields reads hread htail =>
    have hfields := parseFields_joined (.cons hread htail) (by simp) rest fuel (by omega)
    obtain ⟨body, hbody⟩ : ∃ body, joined ',' ((field :: fields).map fieldText) ++ '\x7d' :: rest = '"' :: body := by
      cases fields with
      | nil => exact ⟨_, rfl⟩
      | cons next fields => exact ⟨_, rfl⟩
    rw [hbody] at hfields ⊢
    rw [skipSpace_cons (by decide)]
    simp [hfields]

theorem length_joined_quote (strings : List String) :
    strings.length ≤ (joined ',' (strings.map quote)).length := by
  induction strings with
  | nil => simp [joined]
  | cons s strings ih =>
    cases strings with
    | nil => simp [joined, quote]
    | cons next strings =>
      simp only [List.map_cons, joined_cons_cons, List.length_append, List.length_cons] at ih ⊢
      omega

theorem parse_of_reads {least : ℕ} {text : List Char} {v : Json} (h : Reads least text v)
    (hl : least ≤ 2 * text.length + 1) : parse text = some v := by
  have hread := h _ hl [] ends_nil
  rw [List.append_nil] at hread
  have hend : (skipSpace ([] : List Char)).isEmpty = true := rfl
  rw [parse, hread, Option.bind_eq_bind, Option.bind_some, if_pos hend]
  rfl

end Json

/-! ## Text as bytes -/

/-- `TextEncoder.encode`. -/
def encodeText (text : String) : List UInt8 := text.toByteArray.data.toList

/-- A decoder inside a character: the bytes it still needs, the range of the next one, and the code
point so far. -/
structure TextDecoder where
  needed : ℕ
  lower : ℕ
  upper : ℕ
  point : ℕ

namespace TextDecoder

def start : TextDecoder := ⟨0, 0x80, 0xbf, 0⟩

/-- The first byte of a character. -/
def lead (b : ℕ) : TextDecoder × List Char :=
  if b ≤ 0x7f then (start, [Char.ofNat b])
  else if 0xc2 ≤ b ∧ b ≤ 0xdf then (⟨1, 0x80, 0xbf, b % 0x20⟩, [])
  else if 0xe0 ≤ b ∧ b ≤ 0xef then
    (⟨2, if b = 0xe0 then 0xa0 else 0x80, if b = 0xed then 0x9f else 0xbf, b % 0x10⟩, [])
  else if 0xf0 ≤ b ∧ b ≤ 0xf4 then
    (⟨3, if b = 0xf0 then 0x90 else 0x80, if b = 0xf4 then 0x8f else 0xbf, b % 0x08⟩, [])
  else (start, [Json.replacement])

/-- A byte that cannot continue a character is read again as a first byte. -/
def next (d : TextDecoder) (b : ℕ) : TextDecoder × List Char :=
  if d.needed = 0 then lead b
  else if d.lower ≤ b ∧ b ≤ d.upper then
    let point := d.point * 0x40 + b % 0x40
    if d.needed = 1 then (start, [Char.ofNat point]) else (⟨d.needed - 1, 0x80, 0xbf, point⟩, [])
  else ((lead b).1, Json.replacement :: (lead b).2)

def decodeBytes (d : TextDecoder) : List UInt8 → List Char
  | [] => if d.needed = 0 then [] else [Json.replacement]
  | b :: rest => (d.next b.toNat).2 ++ decodeBytes (d.next b.toNat).1 rest

end TextDecoder

/-- `TextDecoder.decode`: a byte order mark in front is dropped, and what is not UTF-8 is replaced. -/
def decodeText (bytes : List UInt8) : List Char :=
  let text := match String.fromUTF8? ⟨bytes.toArray⟩ with
    | some text => text.toList
    | none => TextDecoder.start.decodeBytes bytes
  match text with
  | c :: rest => if c = Char.ofNat 0xfeff then rest else text
  | [] => []

theorem fromUTF8_encodeText (text : String) : String.fromUTF8? ⟨(encodeText text).toArray⟩ = some text := by
  have hbytes : (⟨(encodeText text).toArray⟩ : ByteArray) = text.toByteArray := by simp [encodeText]
  have hvalid : text.toByteArray.IsValidUTF8 := text.isValidUTF8
  rw [hbytes, String.fromUTF8?, dif_pos hvalid]
  rfl

/-- Text without a byte order mark is decoded back. -/
theorem decodeText_encodeText {c : Char} {rest : List Char} (hc : c ≠ Char.ofNat 0xfeff) :
    decodeText (encodeText (String.ofList (c :: rest))) = c :: rest := by
  simp [decodeText, fromUTF8_encodeText, hc]

theorem encodeText_append (a b : String) : encodeText (a ++ b) = encodeText a ++ encodeText b := by
  simp [encodeText, String.toByteArray_append]

end Foundation
end RecordNode
