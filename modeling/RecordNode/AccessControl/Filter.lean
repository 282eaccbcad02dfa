import RecordNode.Encoding.Environment

/-! # Capability filters

A filter is a value checked for shape before it is evaluated. A malformed node
rejects, and a node of an unknown type or with an extra field fails closed
wherever it sits. Both walks go sixteen levels deep and no further. -/

namespace RecordNode

inductive Shape where
  | ok
  | unknown
  | malformed
deriving DecidableEq

def maxSpecDepth : ℕ := 16

def worstShape (shapes : List Shape) : Shape :=
  if shapes.contains .malformed then .malformed
  else if shapes.contains .unknown then .unknown
  else .ok

def hasExtraFields (fields : Fields) (defined : List String) : Bool :=
  fields.names.any fun name => !defined.contains name

def isScalar : Value → Bool
  | .null | .string _ | .number _ | .bool _ => true
  | _ => false

def rangeBounds : List String := ["gte", "gt", "lte", "lt"]

def prefixMaxBytes : ℕ := 128

/-- The verdict on a node of a known type: broken, carrying an extra field, or fine. -/
def knownShape (fields : Fields) (defined : List String) (wellFormed : Bool) : Shape :=
  if !wellFormed then .malformed else if hasExtraFields fields defined then .unknown else .ok

/-- `filter_shape`, with the levels still allowed in place of the depth reached. -/
def filterShapeAt : ℕ → Option Value → Shape
  | 0, _ => .malformed
  | levels + 1, node =>
    match node.bind Value.fields? with
    | none => .malformed
    | some fields =>
      match fields.string? "type" with
      | none => .malformed
      | some "match" =>
        let values := (((fields.get "fields").bind Value.fields?).getD []).map Prod.snd
        knownShape fields ["type", "fields"]
          (1 ≤ values.length && values.length ≤ 16 && values.all isScalar)
      | some "any_of" =>
        knownShape fields ["type", "field", "values"] ((fields.string? "field").isSome &&
          match fields.array? "values" with
          | some values => 1 ≤ values.length && values.length ≤ 256 && values.all isScalar
          | none => false)
      | some "range" =>
        let bounds := rangeBounds.filter fields.has
        knownShape fields (["type", "field"] ++ rangeBounds) ((fields.string? "field").isSome &&
          1 ≤ bounds.length && bounds.all fun bound => ((fields.get bound).bind Value.asNumber?).isSome)
      | some "prefix" =>
        knownShape fields ["type", "field", "prefix"] ((fields.string? "field").isSome &&
          match fields.string? "prefix" with
          | some wanted => 0 < wanted.length && (utf8ToBytes wanted).length ≤ prefixMaxBytes
          | none => false)
      | some "and" | some "or" =>
        match fields.array? "filters" with
        | some filters =>
          if 1 ≤ filters.length ∧ filters.length ≤ 64 then
            worstShape (knownShape fields ["type", "filters"] true ::
              filters.map fun filter => filterShapeAt levels (some filter))
          else .malformed
        | none => .malformed
      | some "not" =>
        worstShape [knownShape fields ["type", "filter"] (fields.has "filter"),
          filterShapeAt levels (fields.get "filter")]
      | some _ => .unknown

def filterShape (node : Option Value) : Shape := filterShapeAt maxSpecDepth node

/-- What a dotted path reaches: a value, nothing, or the object prototype, which a path
step names as `__proto__` and whose own prototype is null. -/
inductive Resolved where
  | undefined
  | value (v : Value)
  | prototype

def splitDots : List Char → List (List Char)
  | [] => [[]]
  | c :: rest =>
    match splitDots rest with
    | [] => [[c]]
    | head :: tail => if c = '.' then [] :: head :: tail else (c :: head) :: tail

/-- One step of a path. The other names a plain object inherits are functions, which no
filter matches; the names a byte string or a CID inherits are not followed. -/
def resolveStep (current : Resolved) (step : String) : Resolved :=
  match current with
  | .undefined => .undefined
  | .prototype => if step = "__proto__" then .value .null else .undefined
  | .value v =>
    match v.fields? with
    | none => .undefined
    | some fields =>
      match fields.get step with
      | some x => .value x
      | none => if step = "__proto__" then .prototype else .undefined

def resolvePath (subject : Value) (path : String) : Resolved :=
  ((splitDots path.toList).map String.ofList).foldl resolveStep (.value subject)

/-- Same type and value; an array holds a scalar when an element equals it. -/
def holds (resolved : Resolved) (value : Value) : Bool :=
  match resolved with
  | .value (.array items) => items.any fun element => element.sameScalar value
  | .value v => v.sameScalar value
  | _ => false

def startsWith (value : Value) (wanted : String) : Bool :=
  match value with
  | .string s => wanted.toList.isPrefixOf s.toList
  | _ => false

def withinBounds (fields : Fields) (value : ℚ) : Bool :=
  let bound name (test : ℚ → Bool) :=
    match (fields.get name).bind Value.asNumber? with
    | some limit => test limit
    | none => !fields.has name
  bound "gte" (fun limit => limit ≤ value) && bound "gt" (fun limit => limit < value) &&
    bound "lte" (fun limit => value ≤ limit) && bound "lt" (fun limit => value < limit)

/-- `evaluate`, over a node whose whole tree is known to be well formed. -/
def evaluateAt : ℕ → Option Value → Value → Bool
  | 0, _, _ => false
  | levels + 1, node, subject =>
    match node.bind Value.fields? with
    | none => false
    | some fields =>
      match fields.string? "type" with
      | some "match" =>
        (((fields.get "fields").bind Value.fields?).getD []).all fun (path, value) =>
          holds (resolvePath subject path) value
      | some "any_of" =>
        ((fields.array? "values").getD []).any fun value =>
          holds (resolvePath subject ((fields.string? "field").getD "")) value
      | some "range" =>
        match resolvePath subject ((fields.string? "field").getD "") with
        | .value (.number q) => withinBounds fields q
        | _ => false
      | some "prefix" =>
        let wanted := (fields.string? "prefix").getD ""
        match resolvePath subject ((fields.string? "field").getD "") with
        | .value (.array items) => items.any fun element => startsWith element wanted
        | .value v => startsWith v wanted
        | _ => false
      | some "and" => ((fields.array? "filters").getD []).all fun f => evaluateAt levels (some f) subject
      | some "or" => ((fields.array? "filters").getD []).any fun f => evaluateAt levels (some f) subject
      | some "not" => !evaluateAt levels (fields.get "filter") subject
      | _ => false

/-- An absent filter restricts nothing; one not wholly well formed and known matches nothing. -/
def filterMatches (filter : Option Value) (subject : Value) : Bool :=
  filter.isNone || (filterShape filter == .ok && evaluateAt maxSpecDepth filter subject)

end RecordNode
