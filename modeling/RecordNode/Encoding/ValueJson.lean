import RecordNode.Encoding.Value
import RecordNode.Foundation.JsonText
import RecordNode.Foundation.OrderedMap

/-! # In-memory values as JSON

`JSON.stringify` of a value the codec decoded, and what `JSON.parse` makes of the text. A
big integer makes the first throw; bytes and a CID come back as plain objects. Every other
value comes back as it was. -/

namespace RecordNode

open Foundation

/-- How the language writes a number and reads one, and the text of a CID. -/
structure JsonFormat where
  numberText : ℚ → String
  numberValue : String → ℚ
  /-- `String(cid)`, which a CID's `toJSON` puts under the name `/`. -/
  linkText : Fields → String

/-- The number is written as a literal that reads back, as every finite number is. -/
def JsonFormat.ReadsBack (F : JsonFormat) (q : ℚ) : Prop :=
  Json.isNumber (F.numberText q) = true ∧ F.numberValue (F.numberText q) = q

/-- The properties in the order of their first assignment, each with its last value. -/
def Fields.assign (pairs : Fields) : Fields :=
  (pairs.foldl (fun (assigned : OrderedMap String Value) p => assigned.set p.1 p.2) OrderedMap.empty).items

theorem Fields.assign_of_nodup {pairs : Fields} (h : (pairs.map Prod.fst).Nodup) : Fields.assign pairs = pairs := by
  have hfold (rest : Fields) (assigned : OrderedMap String Value)
      (hrest : ((assigned.items ++ rest).map Prod.fst).Nodup) :
      (rest.foldl (fun (assigned : OrderedMap String Value) p => assigned.set p.1 p.2) assigned).items =
        assigned.items ++ rest := by
    induction rest generalizing assigned with
    | nil => simp
    | cons p rest ih =>
      have hnew : p.1 ∉ assigned.items.map Prod.fst := by
        rw [List.map_append, List.map_cons] at hrest
        exact fun hmem => (List.nodup_append'.1 hrest).2.2 hmem List.mem_cons_self
      have hset : (assigned.set p.1 p.2).items = assigned.items ++ [p] := OrderedMap.setItems_of_notMem p.1 p.2 _ hnew
      rw [List.foldl_cons, ih _ (by rwa [hset, List.append_assoc]), hset, List.append_assoc]
      rfl
  exact hfold pairs OrderedMap.empty h

section Conversion
variable (F : JsonFormat)

namespace Value

mutual

/-- What `JSON.stringify` writes for the value; nothing where it throws, at a big integer. -/
def toJson : Value → Option Json
  | .null => some .null
  | .bool b => some (.bool b)
  | .number q => some (.number (F.numberText q))
  | .bigint _ => none
  | .string s => some (.string s)
  | .bytes b => some (.object (b.zipIdx.map fun (x, i) => (toString i, .number (F.numberText x.toNat))))
  | .link properties => some (.object [("/", .string (F.linkText properties))])
  | .array items => (toJsonItems items).map .array
  | .record fields => (toJsonFields fields).map .object

def toJsonItems : List Value → Option (List Json)
  | [] => some []
  | v :: rest => do
    let json ← v.toJson
    let others ← toJsonItems rest
    return json :: others

def toJsonFields : List (String × Value) → Option (List (String × Json))
  | [] => some []
  | (name, v) :: rest => do
    let json ← v.toJson
    let others ← toJsonFields rest
    return (name, json) :: others

end

end Value

namespace Foundation.Json

mutual

/-- What `JSON.parse` builds: of two properties with one name the last is kept. -/
def toValue : Json → Value
  | .null => .null
  | .bool b => .bool b
  | .number literal => .number (F.numberValue literal)
  | .string s => .string s
  | .array items => .array (itemValues items)
  | .object fields => .record (Fields.assign (fieldValues fields))

def itemValues : List Json → List Value
  | [] => []
  | v :: rest => v.toValue :: itemValues rest

def fieldValues : List (String × Json) → Fields
  | [] => []
  | (name, v) :: rest => (name, v.toValue) :: fieldValues rest

end

end Foundation.Json

namespace Value

mutual

/-- An object has one property of a name, and every number in the value reads back. -/
def Proper : Value → Prop
  | .number q => F.ReadsBack q
  | .bytes b => ∀ x ∈ b, F.ReadsBack x.toNat
  | .array items => ProperItems items
  | .record fields => (fields.map Prod.fst).Nodup ∧ ProperFields fields
  | _ => True

def ProperItems : List Value → Prop
  | [] => True
  | v :: rest => v.Proper ∧ ProperItems rest

def ProperFields : List (String × Value) → Prop
  | [] => True
  | p :: rest => p.2.Proper ∧ ProperFields rest

end

end Value

end Conversion

/-! ## What a value is made of -/

namespace Value

mutual

/-- Everything in the value that is neither an array nor a map satisfies the predicate. -/
def all (p : Value → Bool) : Value → Bool
  | .array items => allItems p items
  | .record fields => allFields p fields
  | v => p v

def allItems (p : Value → Bool) : List Value → Bool
  | [] => true
  | v :: rest => v.all p && allItems p rest

def allFields (p : Value → Bool) : List (String × Value) → Bool
  | [] => true
  | q :: rest => q.2.all p && allFields p rest

end

/-- Not a big integer, at which the writer throws. -/
def writable : Value → Bool
  | .bigint _ => false
  | _ => true

/-- Not a big integer, bytes or a CID, none of which comes back as it was. -/
def restored : Value → Bool
  | .bigint _ | .bytes _ | .link _ => false
  | _ => true

def serializable : Value → Bool := all writable

def plain : Value → Bool := all restored

variable {F : JsonFormat}

theorem allItems_eq_all (p : Value → Bool) (items : List Value) : allItems p items = items.all (all p) := by
  induction items with
  | nil => rfl
  | cons v rest ih => simp only [allItems, List.all_cons, ih]

theorem properItems_iff (items : List Value) : ProperItems F items ↔ ∀ v ∈ items, v.Proper F := by
  induction items with
  | nil => simp [ProperItems]
  | cons v rest ih => simp only [ProperItems, ih, List.forall_mem_cons]

theorem toJsonItems_eq_mapM (items : List Value) : toJsonItems F items = items.mapM (toJson F) := by
  induction items with
  | nil => rfl
  | cons v rest ih => simp only [toJsonItems, List.mapM_cons, ih]

mutual

theorem isSome_toJson (v : Value) : (v.toJson F).isSome = v.serializable := by
  match v with
  | .null | .bool _ | .number _ | .bigint _ | .string _ | .bytes _ | .link _ => simp [toJson, serializable, all, writable]
  | .array items =>
    have ih := isSome_toJsonItems items
    simpa [toJson, serializable, all] using ih
  | .record fields =>
    have ih := isSome_toJsonFields fields
    simpa [toJson, serializable, all] using ih

theorem isSome_toJsonItems (items : List Value) :
    (toJsonItems F items).isSome = allItems writable items := by
  match items with
  | [] => simp [toJsonItems, allItems]
  | v :: rest =>
    have hv := isSome_toJson v
    have ih := isSome_toJsonItems rest
    rw [serializable] at hv
    rw [allItems, ← hv, ← ih, toJsonItems]
    cases v.toJson F <;> cases toJsonItems F rest <;> rfl

theorem isSome_toJsonFields (fields : List (String × Value)) :
    (toJsonFields F fields).isSome = allFields writable fields := by
  match fields with
  | [] => simp [toJsonFields, allFields]
  | (name, v) :: rest =>
    have hv := isSome_toJson v
    have ih := isSome_toJsonFields rest
    rw [serializable] at hv
    rw [allFields, ← hv, ← ih, toJsonFields]
    cases v.toJson F <;> cases toJsonFields F rest <;> rfl

end

mutual

theorem valid_of_toJson {v : Value} {json : Json} (hv : v.Proper F) (h : v.toJson F = some json) : json.valid = true := by
  match v with
  | .null | .bool _ | .string _ => 
    simp only [toJson, Option.some.injEq] at h
    subst h
    simp only [Json.valid]
  | .number q =>
    simp only [toJson, Option.some.injEq] at h
    subst h
    simpa only [Json.valid] using (show F.ReadsBack q by simpa only [Proper] using hv).1
  | .bigint _ => simp [toJson] at h
  | .bytes b =>
    simp only [toJson, Option.some.injEq] at h
    subst h
    simp only [Proper] at hv
    simp only [Json.valid, Json.validFields_eq_all, List.all_map, List.all_eq_true]
    rintro ⟨x, i⟩ hx
    simpa only [Function.comp_apply, Json.valid] using (hv x (List.fst_mem_of_mem_zipIdx hx)).1
  | .link properties =>
    simp only [toJson, Option.some.injEq] at h
    subst h
    simp [Json.valid, Json.validFields]
  | .array items =>
    simp only [toJson, Option.map_eq_some_iff] at h
    obtain ⟨jsons, hjsons, rfl⟩ := h
    simp only [Proper] at hv
    simpa only [Json.valid] using validItems_of_toJsonItems hv hjsons
  | .record fields =>
    simp only [toJson, Option.map_eq_some_iff] at h
    obtain ⟨jsons, hjsons, rfl⟩ := h
    simp only [Proper] at hv
    simpa only [Json.valid] using validFields_of_toJsonFields hv.2 hjsons

theorem validItems_of_toJsonItems {items : List Value} {jsons : List Json} (hv : ProperItems F items)
    (h : toJsonItems F items = some jsons) : Json.validItems jsons = true := by
  match items with
  | [] =>
    simp only [toJsonItems, Option.some.injEq] at h
    subst h
    simp only [Json.validItems]
  | v :: rest =>
    simp only [toJsonItems, Option.bind_eq_bind, Option.bind_eq_some_iff] at h
    obtain ⟨json, hjson, others, hothers, hcons⟩ := h
    cases hcons
    simp only [ProperItems] at hv
    simp only [Json.validItems, valid_of_toJson hv.1 hjson, validItems_of_toJsonItems hv.2 hothers, Bool.and_self]

theorem validFields_of_toJsonFields {fields : List (String × Value)} {jsons : List (String × Json)}
    (hv : ProperFields F fields) (h : toJsonFields F fields = some jsons) : Json.validFields jsons = true := by
  match fields with
  | [] =>
    simp only [toJsonFields, Option.some.injEq] at h
    subst h
    simp only [Json.validFields]
  | (name, v) :: rest =>
    simp only [toJsonFields, Option.bind_eq_bind, Option.bind_eq_some_iff] at h
    obtain ⟨json, hjson, others, hothers, hcons⟩ := h
    cases hcons
    simp only [ProperFields] at hv
    simp only [Json.validFields, valid_of_toJson hv.1 hjson, validFields_of_toJsonFields hv.2 hothers, Bool.and_self]

end

/-! ## What comes back -/

theorem names_toJsonFields {fields : List (String × Value)} {jsons : List (String × Json)}
    (h : toJsonFields F fields = some jsons) : jsons.map Prod.fst = fields.map Prod.fst := by
  induction fields generalizing jsons with
  | nil =>
    simp only [toJsonFields, Option.some.injEq] at h
    subst h
    rfl
  | cons p rest ih =>
    simp only [toJsonFields, Option.bind_eq_bind, Option.bind_eq_some_iff] at h
    obtain ⟨json, -, others, hothers, hcons⟩ := h
    cases hcons
    simp only [List.map_cons, ih hothers]

theorem itemValues_eq_map (jsons : List Json) : Json.itemValues F jsons = jsons.map (Json.toValue F) := by
  induction jsons with
  | nil => rfl
  | cons v rest ih => simp only [Json.itemValues, List.map_cons, ih]

theorem names_fieldValues (jsons : List (String × Json)) :
    (Json.fieldValues F jsons).map Prod.fst = jsons.map Prod.fst := by
  induction jsons with
  | nil => rfl
  | cons p rest ih => simp only [Json.fieldValues, List.map_cons, ih]

mutual

/-- A value comes back as it was exactly when it is plain. -/
theorem toValue_eq_iff {v : Value} {json : Json} (hv : v.Proper F) (h : v.toJson F = some json) :
    json.toValue F = v ↔ v.plain = true := by
  match v with
  | .null | .bool _ | .string _ =>
    simp only [toJson, Option.some.injEq] at h
    subst h
    simp [Json.toValue, plain, all, restored]
  | .number q =>
    simp only [toJson, Option.some.injEq] at h
    subst h
    have hback : F.ReadsBack q := by simpa only [Proper] using hv
    simp [Json.toValue, plain, all, restored, hback.2]
  | .bigint _ => simp [toJson] at h
  | .bytes _ | .link _ =>
    simp only [toJson, Option.some.injEq] at h
    subst h
    simp [Json.toValue, plain, all, restored]
  | .array items =>
    simp only [toJson, Option.map_eq_some_iff] at h
    obtain ⟨jsons, hjsons, rfl⟩ := h
    simp only [Proper] at hv
    have hitems := itemValues_eq_iff hv hjsons
    simpa [Json.toValue, plain, all] using hitems
  | .record fields =>
    simp only [toJson, Option.map_eq_some_iff] at h
    obtain ⟨jsons, hjsons, rfl⟩ := h
    simp only [Proper] at hv
    have hfields := fieldValues_eq_iff hv.2 hjsons
    have hnames : ((Json.fieldValues F jsons).map Prod.fst).Nodup := by
      rw [names_fieldValues, names_toJsonFields hjsons]
      exact hv.1
    simpa [Json.toValue, plain, all, Fields.assign_of_nodup hnames] using hfields

theorem itemValues_eq_iff {items : List Value} {jsons : List Json} (hv : ProperItems F items)
    (h : toJsonItems F items = some jsons) :
    Json.itemValues F jsons = items ↔ allItems restored items = true := by
  match items with
  | [] =>
    simp only [toJsonItems, Option.some.injEq] at h
    subst h
    simp [Json.itemValues, allItems]
  | v :: rest =>
    simp only [toJsonItems, Option.bind_eq_bind, Option.bind_eq_some_iff] at h
    obtain ⟨json, hjson, others, hothers, hcons⟩ := h
    cases hcons
    simp only [ProperItems] at hv
    have hhead := toValue_eq_iff hv.1 hjson
    have hrest := itemValues_eq_iff hv.2 hothers
    rw [plain] at hhead
    simp only [Json.itemValues, allItems, List.cons.injEq, Bool.and_eq_true, hhead, hrest]

theorem fieldValues_eq_iff {fields : List (String × Value)} {jsons : List (String × Json)} (hv : ProperFields F fields)
    (h : toJsonFields F fields = some jsons) :
    Json.fieldValues F jsons = fields ↔
      allFields restored fields = true := by
  match fields with
  | [] =>
    simp only [toJsonFields, Option.some.injEq] at h
    subst h
    simp [Json.fieldValues, allFields]
  | (name, v) :: rest =>
    simp only [toJsonFields, Option.bind_eq_bind, Option.bind_eq_some_iff] at h
    obtain ⟨json, hjson, others, hothers, hcons⟩ := h
    cases hcons
    simp only [ProperFields] at hv
    have hhead := toValue_eq_iff hv.1 hjson
    have hrest := fieldValues_eq_iff hv.2 hothers
    rw [plain] at hhead
    simp only [Json.fieldValues, allFields, List.cons.injEq, Prod.mk.injEq, true_and, Bool.and_eq_true, hhead, hrest]

end

end Value

end RecordNode
