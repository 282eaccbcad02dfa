import Mathlib.Algebra.Order.BigOperators.Group.List
import Mathlib.Algebra.Order.Ring.Nat
import RecordNode.Foundation.Json

/-! # The text of a JSON value

`JSON.stringify` of plain data, and that `JSON.parse` reads every such text back. A
number is written as its literal, so it has to be one. -/

namespace RecordNode.Foundation.Json

mutual

def stringify : Json → List Char
  | .null => "null".toList
  | .bool true => "true".toList
  | .bool false => "false".toList
  | .number literal => literal.toList
  | .string s => quote s
  | .array items => arrayText (itemTexts items)
  | .object fields => objectText (fieldTexts fields)

def itemTexts : List Json → List (List Char)
  | [] => []
  | v :: rest => stringify v :: itemTexts rest

def fieldTexts : List (String × Json) → List (String × List Char)
  | [] => []
  | (name, v) :: rest => (name, stringify v) :: fieldTexts rest

end

/-- The text is a number literal, with nothing behind it. -/
def isNumber (literal : String) : Bool :=
  match parseNumber literal.toList with
  | some (.number read, []) => read = literal
  | _ => false

mutual

/-- Every number of the value is a literal. -/
def valid : Json → Bool
  | .number literal => isNumber literal
  | .array items => validItems items
  | .object fields => validFields fields
  | _ => true

def validItems : List Json → Bool
  | [] => true
  | v :: rest => v.valid && validItems rest

def validFields : List (String × Json) → Bool
  | [] => true
  | p :: rest => p.2.valid && validFields rest

end

/-! ## Numbers -/

theorem takeWhile_append_of_stops {p : Char → Bool} {tail : List Char} (h : ∀ c ∈ tail.head?, p c = false)
    (text : List Char) : (text ++ tail).takeWhile p = text.takeWhile p ∧
      (text ++ tail).dropWhile p = text.dropWhile p ++ tail := by
  induction text with
  | nil =>
    cases tail with
    | nil => simp
    | cons c tail => simp [h c (by simp)]
  | cons c text ih =>
    cases hc : p c with
    | true => simpa [hc] using ih
    | false => simp [hc]

theorem Ends.not_digit {rest : List Char} (h : Ends rest) : ∀ c ∈ rest.head?, isDigit c = false := by
  intro c hc
  rcases h c hc with rfl | rfl | rfl <;> decide

theorem parseDigits_append {text digits rest tail : List Char} (h : parseDigits text = some (digits, rest))
    (hend : Ends tail) : parseDigits (text ++ tail) = some (digits, rest ++ tail) := by
  obtain ⟨htake, hdrop⟩ := takeWhile_append_of_stops hend.not_digit text
  unfold parseDigits at h ⊢
  simp only [htake, hdrop]
  simp only at h
  split at h
  · cases h
  · obtain ⟨rfl, rfl⟩ := Prod.mk.inj (Option.some.inj h)
    rename_i hne
    simp [hne]

theorem parseInteger_append {text digits rest tail : List Char} (h : parseInteger text = some (digits, rest))
    (hend : Ends tail) : parseInteger (text ++ tail) = some (digits, rest ++ tail) := by
  cases text with
  | nil => simp [parseInteger, parseDigits] at h
  | cons c text =>
    by_cases hc : c = '0'
    · subst hc
      simp only [parseInteger, Option.some.injEq, Prod.mk.injEq] at h
      obtain ⟨rfl, rfl⟩ := h
      rfl
    · have hdigits (l : List Char) : parseInteger (c :: l) = parseDigits (c :: l) := by
        unfold parseInteger
        split
        · rename_i heq
          exact absurd (List.cons.inj heq).1 hc
        · rfl
      rw [hdigits] at h
      rw [List.cons_append, hdigits, ← List.cons_append]
      exact parseDigits_append h hend

theorem parseFraction_append {text digits rest tail : List Char} (h : parseFraction text = some (digits, rest))
    (hend : Ends tail) : parseFraction (text ++ tail) = some (digits, rest ++ tail) := by
  have hother {l : List Char} (hl : ∀ r, l ≠ '.' :: r) : parseFraction l = some ([], l) := by
    unfold parseFraction
    split
    · exact absurd rfl (hl _)
    · rfl
  cases text with
  | nil =>
    rw [hother (by simp)] at h
    obtain ⟨rfl, rfl⟩ := Prod.mk.inj (Option.some.inj h)
    refine hother fun r hr => ?_
    have hdot := hend '.' (by rw [show tail = '.' :: r from hr]; rfl)
    revert hdot
    decide
  | cons c text =>
    by_cases hc : c = '.'
    · subst hc
      simp only [parseFraction, Option.map_eq_some_iff, Prod.mk.injEq] at h
      obtain ⟨read, hread, rfl, rfl⟩ := h
      simp [parseFraction, parseDigits_append hread hend]
    · rw [hother fun r hr => hc (List.cons.inj hr).1] at h
      obtain ⟨rfl, rfl⟩ := Prod.mk.inj (Option.some.inj h)
      exact hother fun r hr => hc (List.cons.inj hr).1

theorem parseExponent_append {text digits rest tail : List Char} (h : parseExponent text = some (digits, rest))
    (hend : Ends tail) : parseExponent (text ++ tail) = some (digits, rest ++ tail) := by
  cases text with
  | nil =>
    obtain ⟨rfl, rfl⟩ := Prod.mk.inj (Option.some.inj h)
    cases tail with
    | nil => rfl
    | cons c tail =>
      have hc : ¬ (c = 'e' || c = 'E') = true := by
        rcases hend c (by simp) with rfl | rfl | rfl <;> decide
      simp only [List.nil_append, parseExponent, if_neg hc]
  | cons e text =>
    simp only [parseExponent, List.cons_append] at h ⊢
    split at h
    · rename_i he
      rw [if_pos he]
      cases text with
      | nil => simp at h
      | cons sign text =>
        simp only [List.cons_append] at h ⊢
        split at h
        · rename_i hsign
          rw [if_pos hsign]
          obtain ⟨read, hread, heq⟩ := Option.map_eq_some_iff.1 h
          obtain ⟨rfl, rfl⟩ := Prod.mk.inj heq
          simp [parseDigits_append hread hend]
        · rename_i hsign
          rw [if_neg hsign]
          obtain ⟨read, hread, heq⟩ := Option.map_eq_some_iff.1 h
          obtain ⟨rfl, rfl⟩ := Prod.mk.inj heq
          rw [← List.cons_append, parseDigits_append hread hend]
          rfl
    · rename_i he
      rw [if_neg he]
      obtain ⟨rfl, rfl⟩ := Prod.mk.inj (Option.some.inj h)
      rfl

/-- A number is read the same when a value may end behind it. -/
theorem parseNumber_append {text rest tail : List Char} {v : Json} (h : parseNumber text = some (v, rest))
    (hend : Ends tail) : parseNumber (text ++ tail) = some (v, rest ++ tail) := by
  have hminus : ∀ c ∈ tail.head?, decide (c = '-') = false := by
    intro c hc
    rcases hend c hc with rfl | rfl | rfl <;> decide
  obtain ⟨htake, -⟩ := takeWhile_append_of_stops hminus text
  have hlength : ((text.takeWhile (· = '-')).take 1).length ≤ text.length :=
    Nat.le_trans (List.take_sublist 1 _).length_le (List.takeWhile_sublist _).length_le
  simp only [parseNumber, Option.bind_eq_bind, Option.bind_eq_some_iff, Prod.exists] at h
  obtain ⟨integer, afterInteger, hinteger, fraction, afterFraction, hfraction, exponent, afterExponent, hexponent, hres⟩ := h
  obtain ⟨rfl, rfl⟩ := Prod.mk.inj (Option.some.inj hres)
  simp only [parseNumber, htake, List.drop_append_of_le_length hlength, parseInteger_append hinteger hend,
    Option.bind_eq_bind, Option.bind_some, parseFraction_append hfraction hend, parseExponent_append hexponent hend]
  rfl

theorem exists_head_of_parseNumber {text : List Char} {read : Json × List Char} (h : parseNumber text = some read) :
    ∃ c rest, text = c :: rest ∧ (c = '-' ∨ isDigit c = true) := by
  cases text with
  | nil => simp [parseNumber, parseInteger, parseDigits] at h
  | cons c rest =>
    refine ⟨c, rest, rfl, ?_⟩
    by_contra hc
    rw [not_or] at hc
    have hzero : c ≠ '0' := by
      rintro rfl
      exact hc.2 (by decide)
    have hsign : (c :: rest).takeWhile (· = '-') = [] := by simp [hc.1]
    have hinteger : parseInteger (c :: rest) = none := by
      unfold parseInteger
      split
      · rename_i heq
        exact absurd (List.cons.inj heq).1 hzero
      · simp [parseDigits, Bool.eq_false_iff.2 hc.2]
    simp [parseNumber, hsign, hinteger] at h

theorem parseValue_number {c : Char} (hc : c = '-' ∨ isDigit c = true) (fuel : ℕ) (text : List Char) :
    parseValue (fuel + 1) (c :: text) = parseNumber (c :: text) := by
  have hspace : isSpace c = false := by
    rcases hc with rfl | hc
    · decide
    · unfold isDigit at hc
      simp only [isSpace, Bool.or_eq_false_iff, decide_eq_false_iff_not]
      refine ⟨⟨⟨?_, ?_⟩, ?_⟩, ?_⟩ <;> (rintro rfl; revert hc; decide)
  have hne (d : Char) (hd : ¬ (d = '-' ∨ isDigit d = true)) : c ≠ d := by
    rintro rfl
    exact hd hc
  rw [parseValue, skipSpace_cons hspace]
  split
  all_goals first
    | rfl
    | (rename_i heq
       exact absurd (List.cons.inj heq).1 (hne _ (by decide)))

theorem reads_number {literal : String} (h : isNumber literal = true) : Reads 1 literal.toList (.number literal) := by
  have hparse : parseNumber literal.toList = some (.number literal, []) := by
    unfold isNumber at h
    split at h
    · rename_i read heq
      rw [heq, of_decide_eq_true h]
    · cases h
  intro fuel hf rest hend
  obtain ⟨fuel, rfl⟩ := Nat.exists_eq_add_of_le' hf
  obtain ⟨c, tail, htext, hc⟩ := exists_head_of_parseNumber hparse
  have hread := parseNumber_append hparse hend
  rw [htext] at hread ⊢
  rw [List.cons_append, parseValue_number hc, ← List.cons_append, hread]
  rfl

/-! ## Every value is read back -/

theorem reads_null : Reads 1 "null".toList .null := by
  intro fuel hf rest _
  obtain ⟨fuel, rfl⟩ := Nat.exists_eq_add_of_le' hf
  rw [parseValue]
  rfl

theorem reads_false : Reads 1 "false".toList (.bool false) := by
  intro fuel hf rest _
  obtain ⟨fuel, rfl⟩ := Nat.exists_eq_add_of_le' hf
  rw [parseValue]
  rfl

/-- An additive size of joined texts: the texts', and one for each separator. -/
theorem size_joined {size : List Char → ℕ} (hadd : ∀ a b, size (a ++ b) = size a + size b) (separator : Char)
    (hseparator : size [separator] = 1) (texts : List (List Char)) :
    size (joined separator texts) = (texts.map size).sum + (texts.length - 1) := by
  have hnil : size [] = 0 := by
    have := hadd [] []
    simp only [List.append_nil] at this
    omega
  induction texts with
  | nil => simpa [joined] using hnil
  | cons text rest ih =>
    cases rest with
    | nil => simp [joined]
    | cons next rest =>
      rw [joined_cons_cons, hadd, ← List.singleton_append, hadd, hseparator, ih]
      simp only [List.map_cons, List.sum_cons, List.length_cons]
      omega

theorem length_le_joined (separator : Char) {texts : List (List Char)} {text : List Char} (h : text ∈ texts) :
    text.length + (texts.length - 1) ≤ (joined separator texts).length := by
  rw [size_joined (fun a b => List.length_append) separator rfl]
  have := List.single_le_sum (l := texts.map List.length) (by simp) _ (List.mem_map_of_mem h)
  omega

theorem itemTexts_eq_map (items : List Json) : itemTexts items = items.map stringify := by
  induction items with
  | nil => simp only [itemTexts, List.map_nil]
  | cons v rest ih => simp only [itemTexts, List.map_cons, ih]

theorem fieldTexts_eq_map (fields : List (String × Json)) :
    fieldTexts fields = fields.map fun p => (p.1, stringify p.2) := by
  induction fields with
  | nil => simp only [fieldTexts, List.map_nil]
  | cons p rest ih => simp only [fieldTexts, List.map_cons, ih]

theorem validFields_eq_all (fields : List (String × Json)) : validFields fields = fields.all fun p => p.2.valid := by
  induction fields with
  | nil => simp only [validFields, List.all_nil]
  | cons p rest ih => simp only [validFields, List.all_cons, ih]

/-- The value's own text reads back, with the fuel its length gives. -/
abbrev ReadsBack (v : Json) : Prop := Reads (2 * (stringify v).length + 1) (stringify v) v

theorem readsBack_array {items : List Json} (h : ∀ v ∈ items, ReadsBack v) : ReadsBack (.array items) := by
  have htext : stringify (.array items) = arrayText (items.map stringify) := by
    simp only [stringify, itemTexts_eq_map]
  have hlength : (stringify (.array items)).length = (joined ',' (items.map stringify)).length + 2 := by
    rw [htext]
    simp [arrayText]
  have hitems : List.Forall₂ (Reads (2 * ((joined ',' (items.map stringify)).length - (items.length - 1)) + 1))
      (items.map stringify) items := by
    rw [List.forall₂_map_left_iff, List.forall₂_same]
    intro v hv
    have hle := length_le_joined ',' (List.mem_map_of_mem (f := stringify) hv)
    rw [List.length_map] at hle
    exact (h v hv).mono (by omega)
  have hread := reads_arrayText hitems
  rw [← htext, List.length_map] at hread
  refine hread.mono ?_
  rw [hlength]
  have hcount := size_joined (fun a b => List.length_append) ',' rfl (items.map stringify)
  rw [List.length_map] at hcount
  omega

theorem readsBack_object {fields : List (String × Json)} (h : ∀ p ∈ fields, ReadsBack p.2) :
    ReadsBack (.object fields) := by
  have htext : stringify (.object fields) = objectText (fields.map fun p => (p.1, stringify p.2)) := by
    simp only [stringify, fieldTexts_eq_map]
  obtain ⟨texts, htexts⟩ : ∃ texts, texts = (fields.map fun p => (p.1, stringify p.2)).map fieldText := ⟨_, rfl⟩
  have htextsLength : texts.length = fields.length := by rw [htexts, List.length_map, List.length_map]
  have hlength : (stringify (.object fields)).length = (joined ',' texts).length + 2 := by
    rw [htext, htexts]
    simp [objectText]
  have hfields : List.Forall₂ (ReadsField (2 * ((joined ',' texts).length - (fields.length - 1)) + 1))
      (fields.map fun p => (p.1, stringify p.2)) fields := by
    rw [List.forall₂_map_left_iff, List.forall₂_same]
    intro p hp
    have hmem : fieldText (p.1, stringify p.2) ∈ texts := by
      rw [htexts]
      exact List.mem_map_of_mem (List.mem_map_of_mem (f := fun p : String × Json => (p.1, stringify p.2)) hp)
    have hle := length_le_joined ',' hmem
    have hvalue : (stringify p.2).length ≤ (fieldText (p.1, stringify p.2)).length := by
      simp only [fieldText, List.length_append, List.length_cons]
      omega
    exact ⟨rfl, (h p hp).mono (by omega)⟩
  have hread := reads_objectText hfields
  rw [← htext, List.length_map] at hread
  refine hread.mono ?_
  rw [hlength]
  have hcount := size_joined (fun a b => List.length_append) ',' rfl texts
  omega

mutual

theorem readsBack (v : Json) (h : v.valid = true) : ReadsBack v := by
  match v with
  | .null => simpa only [ReadsBack, stringify] using reads_null.mono (by omega)
  | .bool true => simpa only [ReadsBack, stringify] using reads_true.mono (by omega)
  | .bool false => simpa only [ReadsBack, stringify] using reads_false.mono (by omega)
  | .number literal =>
    simp only [valid] at h
    simpa only [ReadsBack, stringify] using (reads_number h).mono (by omega)
  | .string s => simpa only [ReadsBack, stringify] using (reads_quote s).mono (by omega)
  | .array items =>
    simp only [valid] at h
    exact readsBack_array (readsBack_items items h)
  | .object fields =>
    simp only [valid] at h
    exact readsBack_object (readsBack_fields fields h)

theorem readsBack_items (items : List Json) (h : validItems items = true) : ∀ v ∈ items, ReadsBack v := by
  match items with
  | [] => simp
  | v :: rest =>
    simp only [validItems, Bool.and_eq_true] at h
    exact List.forall_mem_cons.2 ⟨readsBack v h.1, readsBack_items rest h.2⟩

theorem readsBack_fields (fields : List (String × Json)) (h : validFields fields = true) :
    ∀ p ∈ fields, ReadsBack p.2 := by
  match fields with
  | [] => simp
  | p :: rest =>
    simp only [validFields, Bool.and_eq_true] at h
    exact List.forall_mem_cons.2 ⟨readsBack p.2 h.1, readsBack_fields rest h.2⟩

end

/-- `JSON.parse` inverts `JSON.stringify` on plain data. -/
theorem parse_stringify {v : Json} (h : v.valid = true) : parse (stringify v) = some v :=
  parse_of_reads (readsBack v h) (Nat.le_refl _)

end RecordNode.Foundation.Json
