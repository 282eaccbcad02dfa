import RecordNode.AccessControl.Filter
import RecordNode.Foundation.Formula

/-! # What a filter means

A filter as its author reads it: comparisons of the fields a dotted path leads to,
put together by conjunction, disjunction and negation. The code checks the shape of
the whole value in one walk and evaluates it in another. Both walks see the same
nodes, so one broken node anywhere keeps the filter from matching, unless the check
takes a byte string for a map; and on the nodes they both accept, evaluation is the
meaning wherever the comparisons that read an object's own fields decide the filter. -/

namespace RecordNode

open Foundation

/-! ## The meaning -/

/-- A comparison of the field a dotted path leads to. -/
inductive Comparison where
  | equals (path : String) (value : Value)
  | within (path : String) (gte gt lte lt : Option ℚ)
  | begins (path wanted : String)

def Comparison.path : Comparison → String
  | .equals path _ | .within path .. | .begins path _ => path

inductive FilterSpec where
  | equal (entries : Fields)
  | anyOf (field : String) (values : List Value)
  | range (field : String) (gte gt lte lt : Option ℚ)
  | begins (field wanted : String)
  | and (filters : List FilterSpec)
  | or (filters : List FilterSpec)
  | not (filter : FilterSpec)

def pathSteps (path : String) : List String := (splitDots path.toList).map String.ofList

/-- One step of a path, into a field the value itself has. -/
def lookupStep (current : Option Value) (step : String) : Option Value :=
  (current.bind Value.fields?).bind fun fields => fields.get step

/-- The field a dotted path leads to. -/
def lookup (subject : Value) (path : String) : Option Value := (pathSteps path).foldl lookupStep (some subject)

/-- The field is this scalar, or an array with this scalar in it. -/
def equalsField (field : Option Value) (value : Value) : Bool :=
  match field with
  | none => false
  | some (.array items) => items.any fun element => element.sameScalar value
  | some v => v.sameScalar value

/-- The field is a text that begins so, or an array with such a text in it. -/
def beginsField (field : Option Value) (wanted : String) : Bool :=
  match field with
  | none => false
  | some (.array items) => items.any fun element => startsWith element wanted
  | some v => startsWith v wanted

def Comparison.meaning (subject : Value) : Comparison → Bool
  | .equals path value => equalsField (lookup subject path) value
  | .within path gte gt lte lt =>
    match lookup subject path with
    | some (.number q) => gte.all (· ≤ q) && gt.all (· < q) && lte.all (q ≤ ·) && lt.all (q < ·)
    | _ => false
  | .begins path wanted => beginsField (lookup subject path) wanted

mutual

/-- The comparisons of a filter, put together: all of a `match` node, one of an `any_of` node. -/
def FilterSpec.formula : FilterSpec → Formula Comparison
  | .equal entries => .conj (entries.map fun p => .atom (.equals p.1 p.2))
  | .anyOf field values => .disj (values.map fun value => .atom (.equals field value))
  | .range field gte gt lte lt => .atom (.within field gte gt lte lt)
  | .begins field wanted => .atom (.begins field wanted)
  | .and filters => .conj (formulas filters)
  | .or filters => .disj (formulas filters)
  | .not filter => .not filter.formula

def formulas : List FilterSpec → List (Formula Comparison)
  | [] => []
  | filter :: rest => filter.formula :: formulas rest

end

/-- The reference meaning of a filter. -/
def FilterSpec.meaning (subject : Value) (filter : FilterSpec) : Bool :=
  filter.formula.eval (Comparison.meaning subject)

/-! ## Reading a filter value -/

def boundOf (fields : Fields) (name : String) : Option ℚ := (fields.get name).bind Value.asNumber?

/-- A map whose `type` field says so. -/
structure Typed (v : Value) (type : String) (fields : Fields) : Prop where
  map_eq : v = .record fields
  type_eq : fields.string? "type" = some type

mutual

/-- The value, read node by node, says this filter. -/
def Spells : FilterSpec → Value → Prop
  | .equal entries, v => ∃ fields, Typed v "match" fields ∧ fields.get "fields" = some (.record entries)
  | .anyOf field values, v => ∃ fields, Typed v "any_of" fields ∧
      fields.string? "field" = some field ∧ fields.array? "values" = some values
  | .range field gte gt lte lt, v => ∃ fields, Typed v "range" fields ∧
      fields.string? "field" = some field ∧ boundOf fields "gte" = gte ∧ boundOf fields "gt" = gt ∧
      boundOf fields "lte" = lte ∧ boundOf fields "lt" = lt
  | .begins field wanted, v => ∃ fields, Typed v "prefix" fields ∧
      fields.string? "field" = some field ∧ fields.string? "prefix" = some wanted
  | .and filters, v => ∃ fields items, Typed v "and" fields ∧
      fields.array? "filters" = some items ∧ SpellsAll filters items
  | .or filters, v => ∃ fields items, Typed v "or" fields ∧
      fields.array? "filters" = some items ∧ SpellsAll filters items
  | .not filter, v => ∃ fields inner, Typed v "not" fields ∧ fields.get "filter" = some inner ∧ Spells filter inner

def SpellsAll : List FilterSpec → List Value → Prop
  | [], [] => True
  | filter :: filters, v :: vs => Spells filter v ∧ SpellsAll filters vs
  | _, _ => False

end

/-- The nodes written directly inside a node. -/
inductive Child (v : Value) : Value → Prop
  | operand {fields : Fields} {type : String} {items : List Value} {x : Value} (typed : Typed v type fields)
      (joins : type = "and" ∨ type = "or") (filters : fields.array? "filters" = some items) (mem : x ∈ items) :
      Child v x
  | negated {fields : Fields} {x : Value} (typed : Typed v "not" fields) (filter : fields.get "filter" = some x) :
      Child v x

/-- The nodes of a filter with the depth each lies at; the filter itself is at depth one. -/
inductive NodeAt : Value → ℕ → Value → Prop
  | root (f : Value) : NodeAt f 1 f
  | inside {f x y : Value} {depth : ℕ} : Child f x → NodeAt x depth y → NodeAt f (depth + 1) y

def OnlyFields (fields : Fields) (defined : List String) : Prop := ∀ name ∈ fields.names, name ∈ defined

instance (fields : Fields) (defined : List String) : Decidable (OnlyFields fields defined) :=
  inferInstanceAs (Decidable (∀ name ∈ fields.names, name ∈ defined))

/-- A node of a known type with exactly its defined fields, within its bounds. -/
inductive WellFormedNode (v : Value) : Prop
  | equal {fields entries : Fields} (typed : Typed v "match" fields) (only : OnlyFields fields ["type", "fields"])
      (entries_eq : fields.get "fields" = some (.record entries)) (least : 1 ≤ entries.length)
      (most : entries.length ≤ 16) (scalars : ∀ p ∈ entries, isScalar p.2 = true)
  | anyOf {fields : Fields} {field : String} {values : List Value} (typed : Typed v "any_of" fields)
      (only : OnlyFields fields ["type", "field", "values"])
      (field_eq : fields.string? "field" = some field) (values_eq : fields.array? "values" = some values)
      (least : 1 ≤ values.length) (most : values.length ≤ 256) (scalars : ∀ value ∈ values, isScalar value = true)
  | range {fields : Fields} {field : String} (typed : Typed v "range" fields)
      (only : OnlyFields fields (["type", "field"] ++ rangeBounds)) (field_eq : fields.string? "field" = some field)
      (least : ∃ bound ∈ rangeBounds, fields.has bound = true)
      (numbers : ∀ bound ∈ rangeBounds, fields.has bound = true → (boundOf fields bound).isSome = true)
  | begins {fields : Fields} {field wanted : String} (typed : Typed v "prefix" fields)
      (only : OnlyFields fields ["type", "field", "prefix"])
      (field_eq : fields.string? "field" = some field) (wanted_eq : fields.string? "prefix" = some wanted)
      (least : 0 < wanted.length) (most : (utf8ToBytes wanted).length ≤ prefixMaxBytes)
  | join {fields : Fields} {type : String} {items : List Value} (typed : Typed v type fields)
      (joins : type = "and" ∨ type = "or") (only : OnlyFields fields ["type", "filters"])
      (filters : fields.array? "filters" = some items) (least : 1 ≤ items.length) (most : items.length ≤ 64)
  | not {fields : Fields} {inner : Value} (typed : Typed v "not" fields)
      (only : OnlyFields fields ["type", "filter"]) (filter : fields.get "filter" = some inner)

/-- Every node is well formed and lies within the levels allowed. -/
def WellFormed (levels : ℕ) (f : Value) : Prop := ∀ depth x, NodeAt f depth x → WellFormedNode x ∧ depth ≤ levels

def Value.isPlain : Value → Bool
  | .record _ => true
  | _ => false

/-- What the code takes for the paths of a `match` node. -/
def readEntries (fields : Fields) : Fields := ((fields.get "fields").bind Value.fields?).getD []

/-- A byte string or a CID where the shape check takes it for a map: as a node, though none has a
`type`, or as the `fields` of a `match` node. -/
inductive Disguised (v : Value) : Prop
  | node {fields : Fields} (foreign : v.isPlain = false) (fields_eq : v.fields? = some fields)
      (named : (fields.string? "type").isSome = true)
  | entries {fields : Fields} {entries : Value} (typed : Typed v "match" fields)
      (only : OnlyFields fields ["type", "fields"]) (entries_eq : fields.get "fields" = some entries)
      (foreign : entries.isPlain = false) (least : 1 ≤ (readEntries fields).length)
      (most : (readEntries fields).length ≤ 16) (scalars : ∀ p ∈ readEntries fields, isScalar p.2 = true)

namespace Typed

variable {v x : Value} {type type' : String} {fields fields' : Fields}

theorem fields_eq (h : Typed v type fields) : v.fields? = some fields := by
  rw [h.map_eq]
  rfl

theorem unique (h : Typed v type fields) (h' : Typed v type' fields') : type = type' ∧ fields = fields' := by
  have hfields : fields = fields' := Value.record.inj (h.map_eq.symm.trans h'.map_eq)
  subst hfields
  exact ⟨Option.some.inj (h.type_eq.symm.trans h'.type_eq), rfl⟩

theorem not_child (h : Typed v type fields) (hleaf : type ∉ ["and", "or", "not"]) : ¬ Child v x := by
  rintro (⟨typed, joins, -, -⟩ | ⟨typed, -⟩)
  · obtain ⟨rfl, -⟩ := h.unique typed
    obtain rfl | rfl := joins <;> simp at hleaf
  · obtain ⟨rfl, -⟩ := h.unique typed
    simp at hleaf

theorem mem_of_child {items : List Value} (h : Typed v type fields) (joins : type = "and" ∨ type = "or")
    (hitems : fields.array? "filters" = some items) (hx : Child v x) : x ∈ items := by
  obtain ⟨typed, -, hitems', hmem⟩ | ⟨typed, -⟩ := hx
  · obtain ⟨-, rfl⟩ := h.unique typed
    obtain rfl := Option.some.inj (hitems.symm.trans hitems')
    exact hmem
  · obtain ⟨rfl, -⟩ := h.unique typed
    simp at joins

theorem eq_of_child {inner : Value} (h : Typed v "not" fields) (hinner : fields.get "filter" = some inner)
    (hx : Child v x) : inner = x := by
  obtain ⟨typed, joins, -, -⟩ | ⟨typed, hx⟩ := hx
  · obtain ⟨rfl, -⟩ := h.unique typed
    simp at joins
  · obtain ⟨-, rfl⟩ := h.unique typed
    exact Option.some.inj (hinner.symm.trans hx)

end Typed

/-! ## The shape check sees every node -/

theorem worstShape_eq_ok {shapes : List Shape} : worstShape shapes = .ok ↔ ∀ shape ∈ shapes, shape = .ok := by
  unfold worstShape
  constructor
  · intro h shape hmem
    split at h
    · cases h
    · split at h
      · cases h
      · cases shape <;> simp_all
  · intro h
    have hbad : Shape.malformed ∉ shapes := fun hmem => by cases h _ hmem
    have hunknown : Shape.unknown ∉ shapes := fun hmem => by cases h _ hmem
    simp [hbad, hunknown]

theorem knownShape_eq_ok {fields : Fields} {defined : List String} {wellFormed : Bool} :
    knownShape fields defined wellFormed = .ok ↔ wellFormed = true ∧ OnlyFields fields defined := by
  unfold knownShape hasExtraFields OnlyFields
  cases wellFormed with
  | false => simp
  | true =>
    by_cases h : (fields.names.any fun name => !defined.contains name) = true
    · simp only [Bool.not_true, Bool.false_eq_true, if_false, h, if_true, true_and, false_iff, reduceCtorEq]
      intro hall
      simp only [List.any_eq_true, Bool.not_eq_true', List.contains_eq_mem, decide_eq_false_iff_not] at h
      obtain ⟨name, hmem, hnot⟩ := h
      exact hnot (hall name hmem)
    · simp only [Bool.not_true, Bool.false_eq_true, if_false, h, true_and, true_iff]
      intro name hmem
      by_contra hnot
      exact h (List.any_eq_true.2 ⟨name, hmem, by simpa using hnot⟩)

/-- A node that passes at this level is of a known type. -/
theorem typed_of_filterShapeAt {n : ℕ} {v : Value} (h : filterShapeAt (n + 1) (some v) = .ok) :
    ∃ fields type, v.fields? = some fields ∧ fields.string? "type" = some type ∧
      type ∈ ["match", "any_of", "range", "prefix", "and", "or", "not"] := by
  unfold filterShapeAt at h
  simp only [Option.bind_some] at h
  split at h
  · cases h
  · rename_i fields hfields
    split at h
    all_goals first
      | cases h
      | exact ⟨fields, _, hfields, by assumption, by simp⟩

theorem filterShapeAt_equal {n : ℕ} {v : Value} {fields : Fields} (typed : Typed v "match" fields) :
    filterShapeAt (n + 1) (some v) = .ok ↔ OnlyFields fields ["type", "fields"] ∧
      1 ≤ (readEntries fields).length ∧ (readEntries fields).length ≤ 16 ∧
      ∀ p ∈ readEntries fields, isScalar p.2 = true := by
  simp only [filterShapeAt, Option.bind_some, typed.fields_eq, typed.type_eq, knownShape_eq_ok, readEntries,
    List.length_map, Bool.and_eq_true, decide_eq_true_eq, List.all_eq_true, List.mem_map, forall_exists_index, and_imp,
    forall_apply_eq_imp_iff₂]
  tauto

theorem filterShapeAt_anyOf {n : ℕ} {v : Value} {fields : Fields} (typed : Typed v "any_of" fields) :
    filterShapeAt (n + 1) (some v) = .ok ↔ OnlyFields fields ["type", "field", "values"] ∧
      ∃ field values, fields.string? "field" = some field ∧ fields.array? "values" = some values ∧
        1 ≤ values.length ∧ values.length ≤ 256 ∧ ∀ value ∈ values, isScalar value = true := by
  simp only [filterShapeAt, Option.bind_some, typed.fields_eq, typed.type_eq, knownShape_eq_ok, Bool.and_eq_true,
    Option.isSome_iff_exists]
  cases hv : fields.array? "values" with
  | none => simp
  | some values => simp [and_assoc, and_comm, and_left_comm]

theorem filterShapeAt_range {n : ℕ} {v : Value} {fields : Fields} (typed : Typed v "range" fields) :
    filterShapeAt (n + 1) (some v) = .ok ↔ OnlyFields fields (["type", "field"] ++ rangeBounds) ∧
      (∃ field, fields.string? "field" = some field) ∧ (∃ bound ∈ rangeBounds, fields.has bound = true) ∧
      ∀ bound ∈ rangeBounds, fields.has bound = true → (boundOf fields bound).isSome = true := by
  simp only [filterShapeAt, Option.bind_some, typed.fields_eq, typed.type_eq, knownShape_eq_ok, Bool.and_eq_true,
    Option.isSome_iff_exists, decide_eq_true_eq, List.all_eq_true, List.mem_filter, and_imp, boundOf,
    Nat.one_le_iff_ne_zero, ← Nat.pos_iff_ne_zero, List.length_pos_iff_exists_mem]
  tauto

theorem filterShapeAt_begins {n : ℕ} {v : Value} {fields : Fields} (typed : Typed v "prefix" fields) :
    filterShapeAt (n + 1) (some v) = .ok ↔ OnlyFields fields ["type", "field", "prefix"] ∧
      ∃ field wanted, fields.string? "field" = some field ∧ fields.string? "prefix" = some wanted ∧
        0 < wanted.length ∧ (utf8ToBytes wanted).length ≤ prefixMaxBytes := by
  simp only [filterShapeAt, Option.bind_some, typed.fields_eq, typed.type_eq, knownShape_eq_ok, Bool.and_eq_true,
    Option.isSome_iff_exists]
  cases hv : fields.string? "prefix" with
  | none => simp
  | some wanted => simp [and_assoc, and_comm]

theorem filterShapeAt_join {n : ℕ} {v : Value} {fields : Fields} {type : String} (typed : Typed v type fields)
    (joins : type = "and" ∨ type = "or") :
    filterShapeAt (n + 1) (some v) = .ok ↔ OnlyFields fields ["type", "filters"] ∧
      ∃ items, fields.array? "filters" = some items ∧ 1 ≤ items.length ∧ items.length ≤ 64 ∧
        ∀ x ∈ items, filterShapeAt n (some x) = .ok := by
  cases hv : fields.array? "filters" with
  | none =>
    have hshape : filterShapeAt (n + 1) (some v) = .malformed := by
      obtain rfl | rfl := joins <;> simp only [filterShapeAt, Option.bind_some, typed.fields_eq, typed.type_eq, hv]
    simp [hshape]
  | some items =>
    have hshape : filterShapeAt (n + 1) (some v) =
        if 1 ≤ items.length ∧ items.length ≤ 64 then
          worstShape (knownShape fields ["type", "filters"] true ::
            items.map fun filter => filterShapeAt n (some filter))
        else .malformed := by
      obtain rfl | rfl := joins <;> simp only [filterShapeAt, Option.bind_some, typed.fields_eq, typed.type_eq, hv]
    rw [hshape]
    by_cases hlen : 1 ≤ items.length ∧ items.length ≤ 64
    · simp only [hlen, and_self, if_true, worstShape_eq_ok, List.mem_cons, List.mem_map, forall_eq_or_imp,
        knownShape_eq_ok, forall_exists_index, and_imp, forall_apply_eq_imp_iff₂, true_and, Option.some.injEq,
        exists_eq_left']
    · simp only [hlen, if_false, reduceCtorEq, false_iff, Option.some.injEq, exists_eq_left']
      tauto

theorem filterShapeAt_not {n : ℕ} {v : Value} {fields : Fields} (typed : Typed v "not" fields) :
    filterShapeAt (n + 1) (some v) = .ok ↔ OnlyFields fields ["type", "filter"] ∧
      ∃ inner, fields.get "filter" = some inner ∧ filterShapeAt n (some inner) = .ok := by
  simp only [filterShapeAt, Option.bind_some, typed.fields_eq, typed.type_eq, worstShape_eq_ok, List.mem_cons,
    forall_eq_or_imp, List.not_mem_nil, false_implies, implies_true, and_true, knownShape_eq_ok, Fields.has]
  cases hv : fields.get "filter" with
  | none => simp
  | some inner => simp

/-- A node that passes is well formed or disguised, and what it holds passes one level further down. -/
theorem passes_of_filterShapeAt {n : ℕ} {v : Value} (h : filterShapeAt (n + 1) (some v) = .ok) :
    (WellFormedNode v ∨ Disguised v) ∧ ∀ x, Child v x → filterShapeAt n (some x) = .ok := by
  obtain ⟨fields, type, hfields, htype, hmem⟩ := typed_of_filterShapeAt h
  by_cases hplain : v.isPlain = true
  swap
  · refine ⟨.inr (.node (Bool.eq_false_iff.2 hplain) hfields (by simp [htype])), fun x hx => ?_⟩
    obtain ⟨typed, -⟩ | ⟨typed, -⟩ := hx <;> exact absurd (by rw [typed.map_eq]; rfl) hplain
  have typed : Typed v type fields := by
    cases v with
    | record own => exact ⟨congrArg Value.record (Option.some.inj hfields), htype⟩
    | _ => simp [Value.isPlain] at hplain
  simp only [List.mem_cons, List.not_mem_nil, or_false] at hmem
  obtain rfl | rfl | rfl | rfl | rfl | rfl | rfl := hmem
  · obtain ⟨only, least, most, scalars⟩ := (filterShapeAt_equal typed).1 h
    refine ⟨?_, fun x hx => (typed.not_child (by decide) hx).elim⟩
    cases hentries : fields.get "fields" with
    | none => simp [readEntries, hentries] at least
    | some entries =>
      cases entries with
      | record entries =>
        have hread : readEntries fields = entries := by simp [readEntries, hentries, Value.fields?]
        rw [hread] at least most scalars
        exact .inl (.equal typed only hentries least most scalars)
      | _ => exact .inr (.entries typed only hentries rfl least most scalars)
  · obtain ⟨only, field, values, hfield, hvalues, least, most, scalars⟩ := (filterShapeAt_anyOf typed).1 h
    exact ⟨.inl (.anyOf typed only hfield hvalues least most scalars), fun x hx => (typed.not_child (by decide) hx).elim⟩
  · obtain ⟨only, ⟨field, hfield⟩, least, numbers⟩ := (filterShapeAt_range typed).1 h
    exact ⟨.inl (.range typed only hfield least numbers), fun x hx => (typed.not_child (by decide) hx).elim⟩
  · obtain ⟨only, field, wanted, hfield, hwanted, least, most⟩ := (filterShapeAt_begins typed).1 h
    exact ⟨.inl (.begins typed only hfield hwanted least most), fun x hx => (typed.not_child (by decide) hx).elim⟩
  · obtain ⟨only, items, hitems, least, most, hall⟩ := (filterShapeAt_join typed (.inl rfl)).1 h
    exact ⟨.inl (.join typed (.inl rfl) only hitems least most),
      fun x hx => hall x (typed.mem_of_child (.inl rfl) hitems hx)⟩
  · obtain ⟨only, items, hitems, least, most, hall⟩ := (filterShapeAt_join typed (.inr rfl)).1 h
    exact ⟨.inl (.join typed (.inr rfl) only hitems least most),
      fun x hx => hall x (typed.mem_of_child (.inr rfl) hitems hx)⟩
  · obtain ⟨only, inner, hinner, hok⟩ := (filterShapeAt_not typed).1 h
    exact ⟨.inl (.not typed only hinner), fun x hx => typed.eq_of_child hinner hx ▸ hok⟩

/-- A well-formed node passes when what it holds passes one level further down. -/
theorem filterShapeAt_of_wellFormed {n : ℕ} {v : Value} (hnode : WellFormedNode v)
    (hchildren : ∀ x, Child v x → filterShapeAt n (some x) = .ok) : filterShapeAt (n + 1) (some v) = .ok := by
  cases hnode with
  | @equal fields entries typed only hentries least most scalars =>
    have hread : readEntries fields = entries := by simp [readEntries, hentries, Value.fields?]
    rw [← hread] at least most scalars
    exact (filterShapeAt_equal typed).2 ⟨only, least, most, scalars⟩
  | anyOf typed only hfield hvalues least most scalars =>
    exact (filterShapeAt_anyOf typed).2 ⟨only, _, _, hfield, hvalues, least, most, scalars⟩
  | range typed only hfield least numbers =>
    exact (filterShapeAt_range typed).2 ⟨only, ⟨_, hfield⟩, least, numbers⟩
  | begins typed only hfield hwanted least most =>
    exact (filterShapeAt_begins typed).2 ⟨only, _, _, hfield, hwanted, least, most⟩
  | join typed joins only hitems least most =>
    exact (filterShapeAt_join typed joins).2
      ⟨only, _, hitems, least, most, fun x hx => hchildren x (.operand typed joins hitems hx)⟩
  | not typed only hinner =>
    exact (filterShapeAt_not typed).2 ⟨only, _, hinner, hchildren _ (.negated typed hinner)⟩

/-- What passes has only well-formed and disguised nodes, all within the levels allowed. -/
theorem nodes_of_filterShapeAt {n : ℕ} {f : Value} (h : filterShapeAt n (some f) = .ok) {depth : ℕ} {x : Value}
    (hx : NodeAt f depth x) : (WellFormedNode x ∨ Disguised x) ∧ depth ≤ n := by
  induction n generalizing f depth with
  | zero => simp [filterShapeAt] at h
  | succ n ih =>
    obtain ⟨hnode, hchildren⟩ := passes_of_filterShapeAt h
    cases hx with
    | root => exact ⟨hnode, by omega⟩
    | inside hchild hbelow =>
      obtain ⟨hpasses, hdepth⟩ := ih (hchildren _ hchild) hbelow
      exact ⟨hpasses, by omega⟩

theorem WellFormed.node {n : ℕ} {f : Value} (h : WellFormed n f) : WellFormedNode f := (h 1 f (.root f)).1

theorem WellFormed.child {n : ℕ} {f x : Value} (h : WellFormed (n + 1) f) (hx : Child f x) : WellFormed n x := by
  intro depth y hy
  obtain ⟨hwell, hdepth⟩ := h _ y (.inside hx hy)
  exact ⟨hwell, by omega⟩

theorem not_wellFormed_zero {f : Value} : ¬ WellFormed 0 f := by
  intro h
  have := (h 1 f (.root f)).2
  omega

theorem WellFormed.of_child {n : ℕ} {f : Value} (hnode : WellFormedNode f) (h : ∀ x, Child f x → WellFormed n x) :
    WellFormed (n + 1) f := by
  rintro _ y (_ | ⟨hchild, hbelow⟩)
  · exact ⟨hnode, by omega⟩
  · obtain ⟨hwell, hdepth⟩ := h _ hchild _ y hbelow
    exact ⟨hwell, by omega⟩

theorem WellFormed.passes {n : ℕ} {f : Value} (h : WellFormed n f) : filterShapeAt n (some f) = .ok := by
  induction n generalizing f with
  | zero => exact absurd h not_wellFormed_zero
  | succ n ih => exact filterShapeAt_of_wellFormed h.node fun x hx => ih (h.child hx)

/-! ## Every well-formed filter says something -/

theorem exists_spellsAll {items : List Value} (h : ∀ x ∈ items, ∃ filter, Spells filter x) :
    ∃ filters, SpellsAll filters items := by
  induction items with
  | nil => exact ⟨[], by simp [SpellsAll]⟩
  | cons x items ih =>
    obtain ⟨filter, hfilter⟩ := h x (List.mem_cons_self ..)
    obtain ⟨filters, hfilters⟩ := ih fun y hy => h y (List.mem_cons_of_mem x hy)
    exact ⟨filter :: filters, by simpa [SpellsAll] using ⟨hfilter, hfilters⟩⟩

theorem WellFormed.exists_spells {n : ℕ} {f : Value} (h : WellFormed n f) : ∃ filter, Spells filter f := by
  induction n generalizing f with
  | zero => exact absurd h not_wellFormed_zero
  | succ n ih =>
    cases h.node with
    | equal typed _ hentries _ _ _ => exact ⟨.equal _, by simpa only [Spells] using ⟨_, typed, hentries⟩⟩
    | anyOf typed _ hfield hvalues _ _ _ =>
      exact ⟨.anyOf _ _, by simpa only [Spells] using ⟨_, typed, hfield, hvalues⟩⟩
    | range typed _ hfield _ _ =>
      exact ⟨.range _ _ _ _ _, by simpa only [Spells] using ⟨_, typed, hfield, rfl, rfl, rfl, rfl⟩⟩
    | begins typed _ hfield hwanted _ _ =>
      exact ⟨.begins _ _, by simpa only [Spells] using ⟨_, typed, hfield, hwanted⟩⟩
    | join typed joins _ hitems _ _ =>
      obtain ⟨filters, hfilters⟩ := exists_spellsAll fun x hx => ih (h.child (.operand typed joins hitems hx))
      obtain rfl | rfl := joins
      · exact ⟨.and filters, by simpa only [Spells] using ⟨_, _, typed, hitems, hfilters⟩⟩
      · exact ⟨.or filters, by simpa only [Spells] using ⟨_, _, typed, hitems, hfilters⟩⟩
    | not typed _ hinner =>
      obtain ⟨filter, hfilter⟩ := ih (h.child (.negated typed hinner))
      exact ⟨.not filter, by simpa only [Spells] using ⟨_, _, typed, hinner, hfilter⟩⟩

/-! ## Inherited names -/

/-- What a byte string and a CID inherit besides methods. -/
def inheritedNames : Value → List String
  | .bytes _ => ["length", "byteLength", "byteOffset", "buffer", "BYTES_PER_ELEMENT", "__proto__"]
  | .link _ => ["asCID", "byteLength", "byteOffset", "__proto__"]
  | _ => []

/-- The path ends at the null above the prototype of a plain object. -/
def inheritsNullAt : Value → List String → Bool
  | _, [] => false
  | v, step :: rest =>
    match lookupStep (some v) step with
    | some x => inheritsNullAt x rest
    | none => v.isPlain && step == "__proto__" && rest == ["__proto__"]

/-- Some step of the path names what a byte string or a CID inherits. -/
def asksInheritedAt : Value → List String → Bool
  | _, [] => false
  | v, step :: rest =>
    match lookupStep (some v) step with
    | some x => asksInheritedAt x rest
    | none => (inheritedNames v).contains step

def inheritsNull (subject : Value) (path : String) : Bool := inheritsNullAt subject (pathSteps path)

def asksInherited (subject : Value) (path : String) : Bool := asksInheritedAt subject (pathSteps path)

/-- The comparison is with null. -/
def Comparison.withNull : Comparison → Bool
  | .equals _ value => Value.null.sameScalar value
  | _ => false

/-- The comparison rests on no name that the subject's objects inherit. -/
structure Comparison.ReadsOwn (subject : Value) (c : Comparison) : Prop where
  foreign : asksInherited subject c.path = false
  null : c.withNull = true → inheritsNull subject c.path = false

instance (subject : Value) (c : Comparison) : Decidable (c.ReadsOwn subject) :=
  decidable_of_iff (asksInherited subject c.path = false ∧ (c.withNull = true → inheritsNull subject c.path = false))
    ⟨fun h => ⟨h.1, h.2⟩, fun h => ⟨h.foreign, h.null⟩⟩

def Resolved.ofOption : Option Value → Resolved
  | none => .undefined
  | some v => .value v

theorem resolveSteps_undefined (steps : List String) : steps.foldl resolveStep .undefined = .undefined := by
  induction steps with
  | nil => rfl
  | cons step rest ih => simpa [resolveStep] using ih

theorem lookupSteps_none (steps : List String) : steps.foldl lookupStep none = none := by
  induction steps with
  | nil => rfl
  | cons step rest ih => simpa [lookupStep] using ih

theorem resolveStep_of_lookup {v x : Value} {step : String} (h : lookupStep (some v) step = some x) :
    resolveStep (.value v) step = .value x := by
  simp only [lookupStep, Option.bind_some, Option.bind_eq_some_iff] at h
  obtain ⟨fields, hfields, hget⟩ := h
  simp [resolveStep, hfields, hget]

/-- A step past the own fields that asks for nothing a byte string or a CID inherits gives nothing, or
the prototype of a plain object. -/
theorem resolveStep_of_none {v : Value} {step : String} (h : lookupStep (some v) step = none)
    (hforeign : (inheritedNames v).contains step = false) : resolveStep (.value v) step = .undefined ∧ (v.isPlain && step == "__proto__") = false ∨
      resolveStep (.value v) step = .prototype ∧ step = "__proto__" ∧ v.isPlain = true := by
  simp only [lookupStep, Option.bind_some] at h
  cases hfields : v.fields? with
  | none =>
    have hplain : v.isPlain = false := by cases v <;> simp_all [Value.isPlain, Value.fields?]
    exact .inl (by simp [resolveStep, hfields, hplain])
  | some fields =>
    have hget : fields.get step = none := by simpa [hfields] using h
    by_cases hstep : step = "__proto__"
    · subst hstep
      cases v with
      | record own => exact .inr ⟨by simp [resolveStep, hfields, hget], rfl, rfl⟩
      | bytes b => simp [inheritedNames] at hforeign
      | link properties => simp [inheritedNames] at hforeign
      | _ => simp [Value.fields?] at hfields
    · exact .inl (by simp [resolveStep, hfields, hget, hstep])

/-- What the steps above an object prototype reach. -/
theorem resolveSteps_prototype (steps : List String) :
    (steps.foldl resolveStep .prototype = .undefined ∨ steps.foldl resolveStep .prototype = .prototype) ∧
        (steps == ["__proto__"]) = false ∨
      steps.foldl resolveStep .prototype = .value .null ∧ steps = ["__proto__"] := by
  match steps with
  | [] => exact .inl ⟨.inr rfl, rfl⟩
  | [step] =>
    by_cases hstep : step = "__proto__"
    · exact .inr ⟨by simp [resolveStep, hstep], by simp [hstep]⟩
    · exact .inl ⟨.inl (by simp [resolveStep, hstep]), by simp [hstep]⟩
  | step :: next :: rest =>
    have hnext : resolveStep (resolveStep .prototype step) next = .undefined := by
      by_cases hstep : step = "__proto__" <;> simp [resolveStep, hstep, Value.fields?]
    refine .inl ⟨.inl ?_, by simp⟩
    rw [List.foldl_cons, List.foldl_cons, hnext, resolveSteps_undefined]

/-- Unless a path asks for what a byte string or a CID inherits, it reaches what the meaning looks up,
or, where that is nothing, the object prototype or the null above it. -/
theorem resolveSteps_cases {v : Value} {steps : List String} (h : asksInheritedAt v steps = false) :
    (steps.foldl resolveStep (.value v) = .ofOption (steps.foldl lookupStep (some v)) ∧ inheritsNullAt v steps = false) ∨
      steps.foldl lookupStep (some v) = none ∧
        (steps.foldl resolveStep (.value v) = .prototype ∧ inheritsNullAt v steps = false ∨
          steps.foldl resolveStep (.value v) = .value .null ∧ inheritsNullAt v steps = true) := by
  induction steps generalizing v with
  | nil => exact .inl ⟨rfl, rfl⟩
  | cons step rest ih =>
    rw [List.foldl_cons, List.foldl_cons]
    cases hlookup : lookupStep (some v) step with
    | some x =>
      rw [resolveStep_of_lookup hlookup]
      simp only [asksInheritedAt, hlookup] at h
      simpa only [inheritsNullAt, hlookup] using ih h
    | none =>
      simp only [asksInheritedAt, hlookup] at h
      rw [lookupSteps_none]
      obtain ⟨hstep, hplain⟩ | ⟨hstep, rfl, hplain⟩ := resolveStep_of_none hlookup h
      · rw [hstep, resolveSteps_undefined]
        exact .inl ⟨rfl, by simp [inheritsNullAt, hlookup, hplain]⟩
      · rw [hstep]
        obtain ⟨hrest | hrest, hne⟩ | ⟨hrest, rfl⟩ := resolveSteps_prototype rest
        · exact .inl ⟨hrest, by simp [inheritsNullAt, hlookup, hne]⟩
        · exact .inr ⟨rfl, .inl ⟨hrest, by simp [inheritsNullAt, hlookup, hne]⟩⟩
        · exact .inr ⟨rfl, .inr ⟨hrest, by simp [inheritsNullAt, hlookup, hplain]⟩⟩

theorem holds_ofOption (field : Option Value) (value : Value) :
    holds (.ofOption field) value = equalsField field value := by
  cases field with
  | none => rfl
  | some v => cases v <;> rfl

theorem resolvePath_cases {subject : Value} {path : String} (h : asksInherited subject path = false) :
    (resolvePath subject path = .ofOption (lookup subject path) ∧ inheritsNull subject path = false) ∨
      lookup subject path = none ∧ (resolvePath subject path = .prototype ∧ inheritsNull subject path = false ∨
        resolvePath subject path = .value .null ∧ inheritsNull subject path = true) :=
  resolveSteps_cases h

/-! ## What the code makes of a comparison -/

def Comparison.verdict (subject : Value) : Comparison → Bool
  | .equals path value => holds (resolvePath subject path) value
  | .within path gte gt lte lt =>
    match resolvePath subject path with
    | .value (.number q) => gte.all (· ≤ q) && gt.all (· < q) && lte.all (q ≤ ·) && lt.all (q < ·)
    | _ => false
  | .begins path wanted =>
    match resolvePath subject path with
    | .value (.array items) => items.any fun element => startsWith element wanted
    | .value v => startsWith v wanted
    | _ => false

/-- A comparison is the one of the meaning, or it compares an inherited null with null and holds where
the meaning has nothing to compare. -/
theorem verdict_cases {subject : Value} {c : Comparison} (h : asksInherited subject c.path = false) :
    c.verdict subject = c.meaning subject ∧ (c.withNull = true → inheritsNull subject c.path = false) ∨
      c.withNull = true ∧ inheritsNull subject c.path = true ∧ c.meaning subject = false ∧ c.verdict subject = true := by
  cases c with
  | equals path value =>
    simp only [Comparison.verdict, Comparison.meaning, Comparison.withNull, Comparison.path] at h ⊢
    obtain ⟨hown, hnull⟩ | ⟨hnone, ⟨hproto, hnull⟩ | ⟨hvalue, hnull⟩⟩ := resolvePath_cases h
    · exact .inl ⟨by rw [hown, holds_ofOption], fun _ => hnull⟩
    · exact .inl ⟨by rw [hproto, hnone]; rfl, fun _ => hnull⟩
    · rw [hvalue, hnone]
      cases hscalar : Value.null.sameScalar value with
      | false => exact .inl ⟨hscalar, fun hf => absurd hf Bool.false_ne_true⟩
      | true => exact .inr ⟨rfl, hnull, rfl, hscalar⟩
  | within path gte gt lte lt =>
    refine .inl ⟨?_, fun hf => absurd hf Bool.false_ne_true⟩
    simp only [Comparison.verdict, Comparison.meaning, Comparison.path] at h ⊢
    obtain ⟨hown, -⟩ | ⟨hnone, ⟨hproto, -⟩ | ⟨hvalue, -⟩⟩ := resolvePath_cases h
    · rw [hown]
      cases lookup subject path with
      | none => rfl
      | some v => cases v <;> rfl
    · rw [hproto, hnone]
    · rw [hvalue, hnone]
  | begins path wanted =>
    refine .inl ⟨?_, fun hf => absurd hf Bool.false_ne_true⟩
    simp only [Comparison.verdict, Comparison.meaning, Comparison.path] at h ⊢
    obtain ⟨hown, -⟩ | ⟨hnone, ⟨hproto, -⟩ | ⟨hvalue, -⟩⟩ := resolvePath_cases h
    · rw [hown]
      cases lookup subject path with
      | none => rfl
      | some v => cases v <;> rfl
    · rw [hproto, hnone]
      rfl
    · rw [hvalue, hnone]
      rfl

theorem verdict_of_readsOwn {subject : Value} (c : Comparison) (h : c.ReadsOwn subject) :
    c.verdict subject = c.meaning subject := by
  obtain ⟨heq, -⟩ | ⟨hwith, hinherits, -⟩ := verdict_cases h.foreign
  · exact heq
  · exact absurd (hinherits.symm.trans (h.null hwith)) (by decide)

/-- A comparison that rests on an inherited null holds, and should not. -/
theorem verdict_of_not_readsOwn {subject : Value} {c : Comparison} (hforeign : asksInherited subject c.path = false)
    (h : ¬ c.ReadsOwn subject) : c.meaning subject = false ∧ c.verdict subject = true := by
  obtain ⟨-, hnull⟩ | ⟨-, -, hwrong⟩ := verdict_cases hforeign
  · exact absurd ⟨hforeign, hnull⟩ h
  · exact hwrong

/-! ## Evaluation puts the comparisons together -/

theorem withinBounds_eq {fields : Fields} (q : ℚ)
    (numbers : ∀ bound ∈ rangeBounds, fields.has bound = true → (boundOf fields bound).isSome = true) :
    withinBounds fields q = ((boundOf fields "gte").all (· ≤ q) && (boundOf fields "gt").all (· < q) &&
      (boundOf fields "lte").all (q ≤ ·) && (boundOf fields "lt").all (q < ·)) := by
  have habsent {name : String} (hname : name ∈ rangeBounds) (hnumber : (fields.get name).bind Value.asNumber? = none) :
      fields.has name = false := by
    by_contra hhas
    simpa [boundOf, hnumber] using numbers name hname (by simpa using hhas)
  unfold withinBounds
  refine congrArg₂ and (congrArg₂ and (congrArg₂ and ?_ ?_) ?_) ?_
  all_goals
    dsimp only
    split
    case h_1 limit hnumber => simp [boundOf, hnumber]
    case h_2 hnumber => simp [boundOf, hnumber, habsent (by simp [rangeBounds]) hnumber]

theorem evaluateAt_items {n : ℕ} {subject : Value} {filters : List FilterSpec} {items : List Value}
    (hspell : SpellsAll filters items) (hitem : ∀ x ∈ items, ∀ filter, Spells filter x →
      evaluateAt n (some x) subject = filter.formula.eval (Comparison.verdict subject)) :
    (items.all fun x => evaluateAt n (some x) subject) = (formulas filters).all (Formula.eval (Comparison.verdict subject)) ∧
      (items.any fun x => evaluateAt n (some x) subject) = (formulas filters).any (Formula.eval (Comparison.verdict subject)) := by
  induction filters generalizing items with
  | nil =>
    cases items with
    | nil => simp [formulas]
    | cons x items => simp [SpellsAll] at hspell
  | cons filter filters ih =>
    cases items with
    | nil => simp [SpellsAll] at hspell
    | cons x items =>
      simp only [SpellsAll] at hspell
      have hx := hitem x (List.mem_cons_self ..) filter hspell.1
      obtain ⟨hall, hany⟩ := ih hspell.2 fun y hy => hitem y (List.mem_cons_of_mem x hy)
      simp only [List.all_cons, List.any_cons, formulas, hx, hall, hany, and_self]

/-- The code evaluates the formula of a well-formed filter, each comparison by its own verdict. -/
theorem evaluateAt_eq_eval {n : ℕ} {subject f : Value} {filter : FilterSpec} (hspell : Spells filter f)
    (hwell : WellFormed n f) : evaluateAt n (some f) subject = filter.formula.eval (Comparison.verdict subject) := by
  induction n generalizing f filter with
  | zero => exact absurd hwell not_wellFormed_zero
  | succ n ih =>
    cases filter with
    | equal entries =>
      simp only [Spells] at hspell
      obtain ⟨fields, typed, hentries⟩ := hspell
      have hread : ((fields.get "fields").bind Value.fields?).getD [] = entries := by simp [hentries, Value.fields?]
      simp only [evaluateAt, Option.bind_some, typed.fields_eq, typed.type_eq, hread, FilterSpec.formula,
        Formula.eval_conj, List.all_map]
      rfl
    | anyOf field values =>
      simp only [Spells] at hspell
      obtain ⟨fields, typed, hfield, hvalues⟩ := hspell
      simp only [evaluateAt, Option.bind_some, typed.fields_eq, typed.type_eq, hfield, hvalues, Option.getD_some,
        FilterSpec.formula, Formula.eval_disj, List.any_map]
      rfl
    | range field gte gt lte lt =>
      simp only [Spells] at hspell
      obtain ⟨fields, typed, hfield, rfl, rfl, rfl, rfl⟩ := hspell
      have hnumbers := ((filterShapeAt_range typed).1 hwell.passes).2.2.2
      simp only [evaluateAt, Option.bind_some, typed.fields_eq, typed.type_eq, hfield, Option.getD_some,
        FilterSpec.formula, Formula.eval, Comparison.verdict]
      cases resolvePath subject field with
      | value v =>
        cases v with
        | number q => exact withinBounds_eq q hnumbers
        | _ => rfl
      | _ => rfl
    | begins field wanted =>
      simp only [Spells] at hspell
      obtain ⟨fields, typed, hfield, hwanted⟩ := hspell
      simp only [evaluateAt, Option.bind_some, typed.fields_eq, typed.type_eq, hfield, hwanted, Option.getD_some,
        FilterSpec.formula, Formula.eval]
      cases hresolved : resolvePath subject field with
      | value v => cases v <;> simp only [Comparison.verdict, hresolved]
      | _ => simp only [Comparison.verdict, hresolved]
    | and filters =>
      simp only [Spells] at hspell
      obtain ⟨fields, items, typed, hitems, hall⟩ := hspell
      simp only [evaluateAt, Option.bind_some, typed.fields_eq, typed.type_eq, hitems, Option.getD_some,
        FilterSpec.formula, Formula.eval_conj]
      exact (evaluateAt_items hall fun x hx filter hfilter =>
        ih hfilter (hwell.child (.operand typed (.inl rfl) hitems hx))).1
    | or filters =>
      simp only [Spells] at hspell
      obtain ⟨fields, items, typed, hitems, hall⟩ := hspell
      simp only [evaluateAt, Option.bind_some, typed.fields_eq, typed.type_eq, hitems, Option.getD_some,
        FilterSpec.formula, Formula.eval_disj]
      exact (evaluateAt_items hall fun x hx filter hfilter =>
        ih hfilter (hwell.child (.operand typed (.inr rfl) hitems hx))).2
    | not filter =>
      simp only [Spells] at hspell
      obtain ⟨fields, inner, typed, hinner, hfilter⟩ := hspell
      simp only [evaluateAt, Option.bind_some, typed.fields_eq, typed.type_eq, hinner, FilterSpec.formula, Formula.eval]
      rw [ih hfilter (hwell.child (.negated typed hinner))]

/-- The comparisons that read own fields decide the filter on the subject. -/
def FilterSpec.SettledFor (filter : FilterSpec) (subject : Value) : Prop :=
  filter.formula.Decided (Comparison.ReadsOwn subject) (Comparison.meaning subject)

instance (filter : FilterSpec) (subject : Value) : Decidable (filter.SettledFor subject) :=
  inferInstanceAs (Decidable (Formula.Decided _ _ _))

namespace Sample

def untitled : Value :=
  .record [("type", .string "not"), ("filter", .record [("type", .string "prefix"),
    ("field", .string "tags.title"), ("prefix", .string "Un")])]

/-- No title that begins so, and of two other fields one that is absent and one that no object has itself. -/
def unlisted : Value :=
  .record [("type", .string "and"), ("filters", .array [untitled,
    .record [("type", .string "match"), ("fields", .record [("tags.album", .string "A"), ("__proto__.__proto__", .null)])]])]

def unlistedSpec : FilterSpec :=
  .and [.not (.begins "tags.title" "Un"), .equal [("tags.album", .string "A"), ("__proto__.__proto__", .null)]]

theorem unlisted_spells : Spells unlistedSpec unlisted := by
  simp only [unlistedSpec, Spells]
  exact ⟨_, _, ⟨rfl, rfl⟩, rfl, ⟨_, _, ⟨rfl, rfl⟩, rfl, _, ⟨rfl, rfl⟩, rfl, rfl⟩, ⟨_, ⟨rfl, rfl⟩, rfl⟩, trivial⟩

theorem untitled_wellFormed (n : ℕ) : WellFormed (n + 2) untitled := by
  refine .of_child (.not ⟨rfl, rfl⟩ (by decide) rfl) fun x hx => ?_
  obtain rfl := Typed.eq_of_child ⟨rfl, rfl⟩ rfl hx
  exact .of_child (.begins ⟨rfl, rfl⟩ (by decide) rfl rfl (by decide) (by decide +kernel)) fun y hy =>
    (Typed.not_child ⟨rfl, rfl⟩ (by decide) hy).elim

theorem unlisted_wellFormed : WellFormed maxSpecDepth unlisted := by
  refine .of_child (.join ⟨rfl, rfl⟩ (.inl rfl) (by decide) rfl (by decide) (by decide)) fun x hx => ?_
  have hmem := Typed.mem_of_child (v := unlisted) ⟨rfl, rfl⟩ (.inl rfl) rfl hx
  obtain rfl | rfl : x = untitled ∨ x = _ := by simpa using hmem
  · exact untitled_wellFormed _
  · exact .of_child (.equal ⟨rfl, rfl⟩ (by decide) rfl (by decide) (by decide) (by decide)) fun y hy =>
      (Typed.not_child ⟨rfl, rfl⟩ (by decide) hy).elim

def taggedSubject : Value := .record [("tags", .record [("title", .string "Intro")])]

end Sample

/-- A filter with a path through the object prototype. -/
def inheritedFilter : Value :=
  .record [("type", .string "match"), ("fields", .record [("__proto__.__proto__", .null)])]

/-- A `match` node with a byte string in place of the map, under a negation. -/
def bytesFilter : Value :=
  .record [("type", .string "not"), ("filter", .record [("type", .string "match"), ("fields", .bytes [1])])]

end RecordNode
