import Mathlib.Data.List.Sort
import Mathlib.Data.Prod.Lex
import Mathlib.Order.Lex
import RecordNode.Encoding.PlainEnvironment

/-! # Map order

JavaScript objects that differ in the order of their keys are one value to the codec.
`Value.sorted` lists every map in the order the codec writes it, and what the program
relies on is that the bytes depend on that listing alone. -/

namespace RecordNode

/-- Shorter keys first, then byte by byte. -/
def fieldKey (name : String) : ℕ ×ₗ List ℕ :=
  toLex ((utf8ToBytes name).length, (utf8ToBytes name).map UInt8.toNat)

def sortFields (fields : Fields) : Fields := fields.insertionSort fun p q => fieldKey p.1 ≤ fieldKey q.1

mutual

/-- The value with the keys of every map in canonical order. -/
def Value.sorted : Value → Value
  | .array items => .array (sortedItems items)
  | .record fields => .record (sortFields (sortedValues fields))
  | v => v

def sortedItems : List Value → List Value
  | [] => []
  | v :: rest => v.sorted :: sortedItems rest

def sortedValues : List (String × Value) → List (String × Value)
  | [] => []
  | (name, v) :: rest => (name, v.sorted) :: sortedValues rest

end

/-- The own properties of a CID object. -/
def cidProperties : List String := ["code", "version", "multihash", "bytes", "/"]

mutual

/-- Every link of the value is a CID object. -/
def Value.linksPlain : Value → Bool
  | .link properties => properties.all fun p => cidProperties.contains p.1
  | .array items => allLinksPlain items
  | .record fields => fieldLinksPlain fields
  | _ => true

def allLinksPlain : List Value → Bool
  | [] => true
  | v :: rest => v.linksPlain && allLinksPlain rest

def fieldLinksPlain : List (String × Value) → Bool
  | [] => true
  | p :: rest => p.2.linksPlain && fieldLinksPlain rest

end

/-- What the program relies on of dag-cbor: the bytes are a function of the value up to map order,
and a decoded link is a CID object. -/
structure Environment.MapLaw (E : Environment) : Prop where
  order : ∀ v w : Value, v.sorted = w.sorted → E.encode v = E.encode w
  links : ∀ b v, E.decode b = some v → v.linksPlain = true

/-! ## Listings of one map -/

theorem sortedItems_eq_map (items : List Value) : sortedItems items = items.map Value.sorted := by
  induction items with
  | nil => simp only [sortedItems, List.map_nil]
  | cons v rest ih => simp only [sortedItems, List.map_cons, ih]

theorem sortedValues_eq_map (fields : Fields) : sortedValues fields = fields.map fun p => (p.1, p.2.sorted) := by
  induction fields with
  | nil => simp only [sortedValues, List.map_nil]
  | cons p rest ih => simp only [sortedValues, List.map_cons, ih]

theorem names_sortedValues (fields : Fields) : (sortedValues fields).map Prod.fst = fields.map Prod.fst := by
  rw [sortedValues_eq_map, List.map_map]
  rfl

theorem fieldKey_injective : Function.Injective fieldKey := by
  intro a b h
  have hbytes : (utf8ToBytes a).map UInt8.toNat = (utf8ToBytes b).map UInt8.toNat := (Prod.mk.inj h).2
  have hlist : utf8ToBytes a = utf8ToBytes b := List.map_injective_iff.2 (fun _ _ => UInt8.toNat_inj.1) hbytes
  have harray : a.toUTF8 = b.toUTF8 := by
    apply ByteArray.ext
    exact Array.toList_inj.1 hlist
  exact String.toByteArray_inj.1 harray

/-- Two listings of the same distinct keys sort to one. -/
theorem sortFields_eq_of_perm {fields fields' : Fields} (h : fields.Perm fields') (hn : (fields.map Prod.fst).Nodup) :
    sortFields fields = sortFields fields' := by
  have hperm : (sortFields fields).Perm (sortFields fields') :=
    ((List.perm_insertionSort _ _).trans h).trans (List.perm_insertionSort _ _).symm
  have hle (l : Fields) : (sortFields l).Pairwise fun p q => fieldKey p.1 ≤ fieldKey q.1 := by
    have : Std.Total (fun p q : String × Value => fieldKey p.1 ≤ fieldKey q.1) := ⟨fun p q => le_total _ _⟩
    have : IsTrans (String × Value) fun p q => fieldKey p.1 ≤ fieldKey q.1 := ⟨fun p q r => le_trans⟩
    exact List.pairwise_insertionSort _ l
  refine hperm.eq_of_pairwise (fun p q hp hq hpq hqp => ?_) (hle fields) (hle fields')
  -- equal keys are the same field where keys are distinct
  have hkey : p.1 = q.1 := fieldKey_injective (le_antisymm hpq hqp)
  have hp' : p ∈ fields := (List.mem_insertionSort _).1 hp
  have hq' : q ∈ fields := h.mem_iff.2 ((List.mem_insertionSort _).1 hq)
  exact List.inj_on_of_nodup_map hn hp' hq' hkey

/-! ## Canonical listings -/

theorem lex_map_toNat {a b : Bytes} (h : List.Lex (fun x y : UInt8 => x.toNat < y.toNat) a b) :
    a.map UInt8.toNat < b.map UInt8.toNat := by
  induction h with
  | nil => exact List.Lex.nil
  | cons _ ih => exact List.Lex.cons ih
  | rel h => exact List.Lex.rel h

theorem fieldKey_lt_of_keyBefore {a b : String} (h : keyBefore a b) : fieldKey a < fieldKey b := by
  rw [fieldKey, fieldKey, Prod.Lex.toLex_lt_toLex]
  exact h.imp id fun h => ⟨h.1, lex_map_toNat h.2⟩

/-- A canonical value is listed in order already. -/
theorem sorted_of_canonical {v : Value} (h : v.Canonical) : v.sorted = v := by
  induction h with
  | array items _ ih =>
    simp only [Value.sorted, sortedItems_eq_map]
    congr 1
    exact (List.map_congr_left ih).trans (List.map_id _)
  | record fields hkeys _ ih =>
    have hvalues : sortedValues fields = fields := by
      rw [sortedValues_eq_map]
      refine (List.map_congr_left fun p hp => ?_).trans (List.map_id _)
      rw [ih p hp]
      rfl
    simp only [Value.sorted, hvalues]
    congr 1
    exact List.Pairwise.insertionSort_eq (hkeys.imp fun h => (fieldKey_lt_of_keyBefore h).le)
  | _ => simp only [Value.sorted]

theorem allLinksPlain_eq_all (items : List Value) : allLinksPlain items = items.all Value.linksPlain := by
  induction items with
  | nil => simp only [allLinksPlain, List.all_nil]
  | cons v rest ih => simp only [allLinksPlain, List.all_cons, ih]

theorem fieldLinksPlain_eq_all (fields : Fields) : fieldLinksPlain fields = fields.all fun p => p.2.linksPlain := by
  induction fields with
  | nil => simp only [fieldLinksPlain, List.all_nil]
  | cons p rest ih => simp only [fieldLinksPlain, List.all_cons, ih]

theorem linksPlain_of_canonical {v : Value} (h : v.Canonical) : v.linksPlain = true := by
  induction h with
  | array items _ ih =>
    simp only [Value.linksPlain, allLinksPlain_eq_all]
    exact List.all_eq_true.2 ih
  | record fields _ _ ih =>
    simp only [Value.linksPlain, fieldLinksPlain_eq_all]
    exact List.all_eq_true.2 ih
  | _ => simp only [Value.linksPlain]

/-- The plain environment with maps written in order and only CID objects read as links. -/
def orderedEnvironment : Environment :=
  { plainEnvironment with
    encode := fun v => plainEnvironment.encode v.sorted
    decode := fun b => (plainEnvironment.decode b).filter Value.linksPlain }

theorem orderedEnvironment_mapLaw : orderedEnvironment.MapLaw where
  order _ _ h := congrArg plainEnvironment.encode h
  links _ _ h := (Option.filter_eq_some_iff.1 h).2

theorem orderedEnvironment_codecLaw : orderedEnvironment.CodecLaw := by
  intro v hv
  change (plainEnvironment.decode (plainEnvironment.encode v.sorted)).filter Value.linksPlain = some v
  rw [sorted_of_canonical hv, plainEnvironment_codecLaw v hv]
  exact Option.filter_eq_some_iff.2 ⟨rfl, linksPlain_of_canonical hv⟩

end RecordNode
