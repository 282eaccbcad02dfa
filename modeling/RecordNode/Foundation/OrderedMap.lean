import Mathlib.Data.List.Basic
import Mathlib.Data.List.Nodup
import Mathlib.Data.List.Perm.Basic

/-! # Insertion-ordered maps and sets

Finite maps and sets that remember the order in which their keys arrived, as a
list without repeated keys. Writing an existing key keeps its position; a new
key goes to the end. The distinctness of the keys is a field of the structure,
so lookups and listings never disagree. -/

namespace RecordNode.Foundation

variable {κ ν α : Type*} [DecidableEq κ] [DecidableEq α]

structure OrderedMap (κ ν : Type*) where
  items : List (κ × ν)
  keys_nodup : (items.map Prod.fst).Nodup

namespace OrderedMap

def empty : OrderedMap κ ν := ⟨[], by simp⟩

def keys (m : OrderedMap κ ν) : List κ := m.items.map Prod.fst

def values (m : OrderedMap κ ν) : List ν := m.items.map Prod.snd

def size (m : OrderedMap κ ν) : ℕ := m.items.length

def get (m : OrderedMap κ ν) (k : κ) : Option ν := m.items.lookup k

def has (m : OrderedMap κ ν) (k : κ) : Bool := (m.get k).isSome

/-- Replace the value of a present key in place, or append a new key. -/
def setItems (k : κ) (v : ν) : List (κ × ν) → List (κ × ν)
  | [] => [(k, v)]
  | p :: rest => if p.1 = k then (k, v) :: rest else p :: setItems k v rest

theorem mem_keys_setItems (k : κ) (v : ν) (l : List (κ × ν)) (x : κ) :
    x ∈ (setItems k v l).map Prod.fst ↔ x = k ∨ x ∈ l.map Prod.fst := by
  induction l with
  | nil => simp [setItems]
  | cons p rest ih =>
    by_cases h : p.1 = k
    · simp [setItems, h]
    · simp only [setItems, if_neg h, List.map_cons, List.mem_cons, ih]
      tauto

theorem nodup_setItems (k : κ) (v : ν) (l : List (κ × ν)) (h : (l.map Prod.fst).Nodup) :
    ((setItems k v l).map Prod.fst).Nodup := by
  induction l with
  | nil => simp [setItems]
  | cons p rest ih =>
    rw [List.map_cons, List.nodup_cons] at h
    by_cases hp : p.1 = k
    · subst hp
      simpa [setItems] using h
    · rw [setItems, if_neg hp, List.map_cons, List.nodup_cons, mem_keys_setItems]
      exact ⟨by tauto, ih h.2⟩

def set (m : OrderedMap κ ν) (k : κ) (v : ν) : OrderedMap κ ν :=
  ⟨setItems k v m.items, nodup_setItems k v m.items m.keys_nodup⟩

def delete (m : OrderedMap κ ν) (k : κ) : OrderedMap κ ν :=
  ⟨m.items.filter (fun p => p.1 ≠ k), m.keys_nodup.sublist (List.filter_sublist.map _)⟩

@[simp] theorem get_empty (k : κ) : (empty : OrderedMap κ ν).get k = none := rfl

theorem lookup_setItems (k : κ) (v : ν) (l : List (κ × ν)) (x : κ) :
    (setItems k v l).lookup x = if x = k then some v else l.lookup x := by
  induction l with
  | nil =>
    by_cases h : x = k
    · simp [setItems, h]
    · have hb : (x == k) = false := by simpa using h
      simp [setItems, List.lookup_cons, h, hb]
  | cons p rest ih =>
    obtain ⟨a, b⟩ := p
    by_cases hp : a = k
    · subst hp
      by_cases h : x = a
      · simp [setItems, h]
      · have hb : (x == a) = false := by simpa using h
        simp [setItems, List.lookup_cons, h, hb]
    · rw [setItems, if_neg hp]
      by_cases h : x = a
      · subst h
        simp [hp]
      · have hb : (x == a) = false := by simpa using h
        simp only [List.lookup_cons, hb, ih]

@[simp] theorem get_set (m : OrderedMap κ ν) (k : κ) (v : ν) (x : κ) :
    (m.set k v).get x = if x = k then some v else m.get x :=
  lookup_setItems k v m.items x

theorem lookup_eq_some_iff_mem (l : List (κ × ν)) (h : (l.map Prod.fst).Nodup) (k : κ) (v : ν) :
    l.lookup k = some v ↔ (k, v) ∈ l := by
  induction l with
  | nil => simp
  | cons p rest ih =>
    obtain ⟨a, b⟩ := p
    rw [List.map_cons, List.nodup_cons] at h
    by_cases hk : k = a
    · subst hk
      have hr : (k, v) ∉ rest := fun hm => h.1 (List.mem_map.mpr ⟨(k, v), hm, rfl⟩)
      simp [hr, eq_comm]
    · have hb : (k == a) = false := by simpa using hk
      simp [List.lookup_cons, hb, ih h.2, hk]

theorem get_eq_some_iff (m : OrderedMap κ ν) (k : κ) (v : ν) :
    m.get k = some v ↔ (k, v) ∈ m.items :=
  lookup_eq_some_iff_mem m.items m.keys_nodup k v

theorem mem_values_iff (m : OrderedMap κ ν) (v : ν) : v ∈ m.values ↔ ∃ k, m.get k = some v := by
  simp [values, get_eq_some_iff]

theorem mem_keys_iff (m : OrderedMap κ ν) (k : κ) : k ∈ m.keys ↔ ∃ v, m.get k = some v := by
  simp [keys, get_eq_some_iff]

@[simp] theorem get_delete (m : OrderedMap κ ν) (k x : κ) :
    (m.delete k).get x = if x = k then none else m.get x := by
  apply Option.ext
  intro v
  rw [get_eq_some_iff, delete, List.mem_filter, ← get_eq_some_iff]
  by_cases h : x = k <;> simp [h]

theorem get_delete_eq_some (m : OrderedMap κ ν) {k x : κ} {v : ν} :
    (m.delete k).get x = some v ↔ x ≠ k ∧ m.get x = some v := by
  rw [get_delete]
  exact Option.ite_none_left_eq_some

theorem mem_items_set {m : OrderedMap κ ν} {k : κ} {v : ν} {p : κ × ν} :
    p ∈ (m.set k v).items ↔ p = (k, v) ∨ p ∈ m.items ∧ p.1 ≠ k := by
  obtain ⟨x, w⟩ := p
  rw [← get_eq_some_iff, ← get_eq_some_iff, get_set, Prod.mk.injEq]
  by_cases hx : x = k
  · simp [hx, eq_comm]
  · simp [hx]

theorem has_iff (m : OrderedMap κ ν) (k : κ) : m.has k = true ↔ ∃ v, m.get k = some v :=
  Option.isSome_iff_exists

theorem has_set (m : OrderedMap κ ν) (k : κ) (v : ν) (x : κ) :
    (m.set k v).has x = true ↔ x = k ∨ m.has x = true := by
  by_cases h : x = k <;> simp [has, h]

theorem has_delete (m : OrderedMap κ ν) (k x : κ) :
    (m.delete k).has x = true ↔ m.has x = true ∧ x ≠ k := by
  by_cases h : x = k <;> simp [has, h]

theorem size_set_le (m : OrderedMap κ ν) (k : κ) (v : ν) : (m.set k v).size ≤ m.size + 1 := by
  change (setItems k v m.items).length ≤ m.items.length + 1
  generalize m.items = l
  induction l with
  | nil => simp [setItems]
  | cons p rest ih =>
    rw [setItems]
    split
    · simp
    · simpa using ih

theorem size_delete_le (m : OrderedMap κ ν) (k : κ) : (m.delete k).size ≤ m.size :=
  List.length_filter_le _ _

theorem values_eq_filterMap_of_keys (m : OrderedMap κ ν) :
    m.values = m.keys.filterMap m.get := by
  have hg : ∀ p ∈ m.items, m.get p.1 = some p.2 := fun p hp => (m.get_eq_some_iff p.1 p.2).mpr hp
  rw [keys, values, List.filterMap_map]
  generalize m.items = l at hg ⊢
  induction l with
  | nil => rfl
  | cons p rest ih =>
    have hp : (m.get ∘ Prod.fst) p = some p.2 := hg p List.mem_cons_self
    rw [List.map_cons, List.filterMap_cons_some hp, ih fun q hq => hg q (List.mem_cons_of_mem _ hq)]

theorem setItems_of_notMem (k : κ) (v : ν) (l : List (κ × ν)) (h : k ∉ l.map Prod.fst) :
    setItems k v l = l ++ [(k, v)] := by
  induction l with
  | nil => rfl
  | cons p rest ih =>
    simp only [List.map_cons, List.mem_cons, not_or] at h
    rw [setItems, if_neg (Ne.symm h.1), ih h.2, List.cons_append]

/-- A new key goes to the end. -/
theorem values_set (m : OrderedMap κ ν) {k : κ} (h : m.get k = none) (v : ν) :
    (m.set k v).values = m.values ++ [v] := by
  have hk : k ∉ m.keys := by
    rw [mem_keys_iff, h]
    simp
  change (setItems k v m.items).map Prod.snd = m.items.map Prod.snd ++ [v]
  rw [setItems_of_notMem k v m.items hk, List.map_append]
  rfl

theorem keys_set (m : OrderedMap κ ν) {k : κ} (h : m.get k = none) (v : ν) : (m.set k v).keys = m.keys ++ [k] := by
  have hk : k ∉ m.keys := by
    rw [mem_keys_iff, h]
    simp
  change (setItems k v m.items).map Prod.fst = m.items.map Prod.fst ++ [k]
  rw [setItems_of_notMem k v m.items hk, List.map_append]
  rfl

theorem perm_keys_delete (m : OrderedMap κ ν) {k : κ} {v : ν} (h : m.get k = some v) :
    m.keys.Perm (k :: (m.delete k).keys) := by
  have hk : k ∈ m.keys := (m.mem_keys_iff k).mpr ⟨v, h⟩
  have hdelete : (m.delete k).keys = m.keys.erase k := by
    have hnodup : m.keys.Nodup := m.keys_nodup
    rw [hnodup.erase_eq_filter]
    simp only [keys, delete, List.filter_map]
    congr 1
    apply List.filter_congr
    intro p _
    simp [Function.comp_apply, bne, beq_eq_decide]
  rw [hdelete]
  exact List.perm_cons_erase hk

theorem set_of_get {m : OrderedMap κ ν} {k : κ} {v : ν} (h : m.get k = some v) : m.set k v = m := by
  obtain ⟨l, hl⟩ := m
  have hm : (k, v) ∈ l := (get_eq_some_iff ⟨l, hl⟩ k v).mp h
  have hs : setItems k v l = l := by
    clear h
    induction l with
    | nil => cases hm
    | cons p rest ih =>
      rw [List.map_cons, List.nodup_cons] at hl
      rw [setItems]
      split
      case isTrue hp =>
        rcases List.mem_cons.mp hm with rfl | hm
        · rfl
        · exact absurd (List.mem_map.mpr ⟨(k, v), hm, hp.symm⟩) hl.1
      case isFalse hp =>
        rcases List.mem_cons.mp hm with rfl | hm
        · exact absurd rfl hp
        · rw [ih hl.2 hm]
  simp only [set, hs]

theorem delete_of_get_none {m : OrderedMap κ ν} {k : κ} (h : m.get k = none) : m.delete k = m := by
  have hf : m.items.filter (fun p => p.1 ≠ k) = m.items := by
    rw [List.filter_eq_self]
    intro p hp
    have hg := (m.get_eq_some_iff p.1 p.2).mpr hp
    simpa using fun heq : p.1 = k => by simp [← heq, hg] at h
  simp only [delete, hf]

theorem delete_set (m : OrderedMap κ ν) (k : κ) (v : ν) : (m.set k v).delete k = m.delete k := by
  have hl : ∀ l : List (κ × ν), (setItems k v l).filter (fun p => p.1 ≠ k) = l.filter (fun p => p.1 ≠ k) := by
    intro l
    induction l with
    | nil => simp [setItems]
    | cons p rest ih =>
      rw [setItems]
      split
      case isTrue hp => simp [hp]
      case isFalse hp =>
        rw [List.filter_cons_of_pos (by simpa using hp), List.filter_cons_of_pos (by simpa using hp), ih]
  simp only [delete, set, hl]

/-- The count over a map is that over the other keys and that of the key. -/
theorem countP_delete (m : OrderedMap κ ν) (k : κ) (p : κ × ν → Bool) :
    m.items.countP p = (m.delete k).items.countP p + (m.get k).elim 0 fun v => if p (k, v) then 1 else 0 := by
  obtain ⟨l, hl⟩ := m
  change l.countP p = (l.filter fun q => q.1 ≠ k).countP p + (l.lookup k).elim 0 fun v => if p (k, v) then 1 else 0
  induction l with
  | nil => rfl
  | cons q rest ih =>
    obtain ⟨a, b⟩ := q
    rw [List.map_cons, List.nodup_cons] at hl
    by_cases ha : a = k
    · subst ha
      have hrest : rest.filter (fun q => q.1 ≠ a) = rest := by
        rw [List.filter_eq_self]
        intro q hq
        simpa using fun heq => hl.1 (List.mem_map.mpr ⟨q, hq, heq⟩)
      rw [List.filter_cons_of_neg (by simp), hrest, List.lookup_cons_self, List.countP_cons]
      rfl
    · have hb : (k == a) = false := by simpa using Ne.symm ha
      rw [List.filter_cons_of_pos (by simpa using ha), List.countP_cons, List.countP_cons, ih hl.2]
      simp only [List.lookup_cons, hb]
      omega

theorem countP_set (m : OrderedMap κ ν) (k : κ) (v : ν) (p : κ × ν → Bool) :
    (m.set k v).items.countP p = (m.delete k).items.countP p + if p (k, v) then 1 else 0 := by
  rw [countP_delete (m.set k v) k p, delete_set, get_set, if_pos rfl]
  rfl

/-- Rewrite every value in its place. -/
def mapValues (f : κ → ν → ν) (m : OrderedMap κ ν) : OrderedMap κ ν :=
  ⟨m.items.map fun p => (p.1, f p.1 p.2), by simpa [Function.comp_def] using m.keys_nodup⟩

@[simp] theorem get_mapValues (f : κ → ν → ν) (m : OrderedMap κ ν) (k : κ) :
    (m.mapValues f).get k = (m.get k).map (f k) := by
  apply Option.ext
  intro v
  simp only [get_eq_some_iff, mapValues, List.mem_map, Prod.mk.injEq, Option.map_eq_some_iff]
  constructor
  · rintro ⟨⟨a, b⟩, hm, rfl, rfl⟩
    exact ⟨b, hm, rfl⟩
  · rintro ⟨b, hm, rfl⟩
    exact ⟨(k, b), hm, rfl, rfl⟩

/-- Keep the entries whose key passes. -/
def filterKeys (p : κ → Bool) (m : OrderedMap κ ν) : OrderedMap κ ν :=
  ⟨m.items.filter fun q => p q.1, m.keys_nodup.sublist (List.filter_sublist.map _)⟩

@[simp] theorem get_filterKeys (p : κ → Bool) (m : OrderedMap κ ν) (k : κ) :
    (m.filterKeys p).get k = if p k then m.get k else none := by
  apply Option.ext
  intro v
  rw [get_eq_some_iff, filterKeys, List.mem_filter, ← get_eq_some_iff]
  cases p k <;> simp

/-- Two maps with the same lookups list the same values, up to order. -/
theorem values_perm (m n : OrderedMap κ ν) (h : ∀ k, m.get k = n.get k) :
    m.values.Perm n.values := by
  have hk : m.keys.Perm n.keys := by
    apply (List.perm_ext_iff_of_nodup m.keys_nodup n.keys_nodup).mpr
    intro k
    change k ∈ m.keys ↔ k ∈ n.keys
    rw [mem_keys_iff, mem_keys_iff, h]
  rw [values_eq_filterMap_of_keys, values_eq_filterMap_of_keys, show m.get = n.get from funext h]
  exact hk.filterMap _

/-! ## Writing one pair after the other -/

/-- The last of the written values; where all agree, any of them. -/
theorem foldl_or_eq_some_iff {ι : Type*} {f : ι → Option ν} {items : List ι}
    (hone : ∀ i ∈ items, ∀ j ∈ items, ∀ v w, f i = some v → f j = some w → v = w) (start : Option ν) (v : ν) :
    items.foldl (fun last i => (f i).or last) start = some v ↔
      (∃ i ∈ items, f i = some v) ∨ start = some v ∧ ∀ i ∈ items, f i = none := by
  induction items generalizing start with
  | nil => simp
  | cons i rest ih =>
    have hrest := ih (fun a ha b hb => hone a (List.mem_cons_of_mem _ ha) b (List.mem_cons_of_mem _ hb)) ((f i).or start)
    rw [List.foldl_cons, hrest]
    cases hi : f i with
    | none => simp [hi]
    | some w =>
      simp only [Option.some_or, Option.some_inj, List.mem_cons, exists_eq_or_imp, forall_eq_or_imp, hi, reduceCtorEq,
        false_and, and_false, or_false]
      constructor
      · rintro (h | ⟨h, -⟩)
        · exact Or.inr h
        · exact Or.inl h
      · rintro (h | h)
        · by_cases hall : ∀ j ∈ rest, f j = none
          · exact Or.inr ⟨h, hall⟩
          · push Not at hall
            obtain ⟨j, hj, hsome⟩ := hall
            obtain ⟨u, hu⟩ := Option.ne_none_iff_exists'.mp hsome
            have : w = u := hone i List.mem_cons_self j (List.mem_cons_of_mem _ hj) w u hi hu
            exact Or.inl ⟨j, hj, by rw [hu, ← this, h]⟩
        · exact Or.inl h

/-- A map after writing a pair for each of the items that has one. -/
def setEach {ι : Type*} (f : ι → Option (κ × ν)) (m : OrderedMap κ ν) (items : List ι) : OrderedMap κ ν :=
  items.foldl (fun m i => match f i with
    | some (k, v) => m.set k v
    | none => m) m

theorem get_setEach {ι : Type*} (f : ι → Option (κ × ν)) (m : OrderedMap κ ν) (items : List ι) (k : κ) :
    (setEach f m items).get k =
      items.foldl (fun last i => ((f i).bind fun p => if p.1 = k then some p.2 else none).or last) (m.get k) := by
  unfold setEach
  induction items generalizing m with
  | nil => rfl
  | cons i rest ih =>
    rw [List.foldl_cons, List.foldl_cons, ih]
    cases hi : f i with
    | none => rfl
    | some p =>
      simp only [get_set, Option.bind_some]
      by_cases hk : p.1 = k
      · simp [hk]
      · simp [hk, Ne.symm hk]

/-- Where no two items write different values for a key, the map holds what was written. -/
theorem get_setEach_empty {ι : Type*} {f : ι → Option (κ × ν)} {items : List ι} {k : κ}
    (hone : ∀ i ∈ items, ∀ j ∈ items, ∀ v w, f i = some (k, v) → f j = some (k, w) → v = w) (v : ν) :
    (setEach f empty items).get k = some v ↔ ∃ i ∈ items, f i = some (k, v) := by
  have hvalue (i : ι) (v : ν) :
      ((f i).bind fun p => if p.1 = k then some p.2 else none) = some v ↔ f i = some (k, v) := by
    rw [Option.bind_eq_some_iff]
    constructor
    · rintro ⟨⟨x, w⟩, hf, hw⟩
      split at hw
      case isTrue hk =>
        obtain rfl := hk
        obtain rfl := Option.some_inj.mp hw
        exact hf
      case isFalse => cases hw
    · intro h
      exact ⟨_, h, if_pos rfl⟩
  rw [get_setEach, foldl_or_eq_some_iff fun i hi j hj v w hv hw =>
    hone i hi j hj v w ((hvalue i v).mp hv) ((hvalue j w).mp hw)]
  simp [hvalue]

end OrderedMap

structure OrderedSet (α : Type*) where
  items : List α
  nodup : items.Nodup

namespace OrderedSet

section Basic
variable {α : Type*}

instance : Membership α (OrderedSet α) := ⟨fun s a => a ∈ s.items⟩

def empty : OrderedSet α := ⟨[], List.nodup_nil⟩

def size (s : OrderedSet α) : ℕ := s.items.length

theorem mem_items (a : α) (s : OrderedSet α) : a ∈ s.items ↔ a ∈ s := Iff.rfl

@[simp] theorem mem_empty (a : α) : ¬ a ∈ (empty : OrderedSet α) := List.not_mem_nil

theorem size_eq_zero_iff (s : OrderedSet α) : s.size = 0 ↔ ∀ x, ¬ x ∈ s := by
  rw [size, List.length_eq_zero_iff]
  exact List.eq_nil_iff_forall_not_mem

end Basic

instance (a : α) (s : OrderedSet α) : Decidable (a ∈ s) := inferInstanceAs (Decidable (a ∈ s.items))

def has (s : OrderedSet α) (a : α) : Bool := decide (a ∈ s)

def add (s : OrderedSet α) (a : α) : OrderedSet α :=
  if h : a ∈ s then s else ⟨s.items ++ [a], by
    rw [List.nodup_append]
    refine ⟨s.nodup, by simp, ?_⟩
    intro x hx y hy hxy
    rw [List.mem_singleton] at hy
    rw [hxy, hy] at hx
    exact h hx⟩

theorem items_add {s : OrderedSet α} {a : α} (h : a ∉ s) : (s.add a).items = s.items ++ [a] := by
  rw [add, dif_neg h]

def delete (s : OrderedSet α) (a : α) : OrderedSet α :=
  ⟨s.items.filter (· ≠ a), s.nodup.filter _⟩

def ofList (l : List α) : OrderedSet α := l.foldl add empty

@[simp] theorem mem_add (s : OrderedSet α) (a x : α) : x ∈ s.add a ↔ x = a ∨ x ∈ s := by
  unfold add
  split
  case isTrue h =>
    constructor
    · exact Or.inr
    · rintro (rfl | hx)
      · exact h
      · exact hx
  case isFalse h =>
    change x ∈ s.items ++ [a] ↔ x = a ∨ x ∈ s.items
    simp [or_comm]

@[simp] theorem mem_delete (s : OrderedSet α) (a x : α) : x ∈ s.delete a ↔ x ∈ s ∧ x ≠ a := by
  change x ∈ s.items.filter (· ≠ a) ↔ x ∈ s.items ∧ x ≠ a
  simp

@[simp] theorem has_iff (s : OrderedSet α) (a : α) : s.has a = true ↔ a ∈ s := decide_eq_true_iff

theorem mem_foldl_add (l : List α) (s : OrderedSet α) (x : α) :
    x ∈ l.foldl add s ↔ x ∈ l ∨ x ∈ s := by
  induction l generalizing s with
  | nil => simp
  | cons a rest ih =>
    rw [List.foldl_cons, ih, mem_add, List.mem_cons]
    tauto

@[simp] theorem mem_ofList (l : List α) (x : α) : x ∈ ofList l ↔ x ∈ l := by
  simp [ofList, mem_foldl_add]

theorem mem_foldl_delete (l : List α) (s : OrderedSet α) (x : α) :
    x ∈ l.foldl delete s ↔ x ∈ s ∧ x ∉ l := by
  induction l generalizing s with
  | nil => simp
  | cons a rest ih =>
    rw [List.foldl_cons, ih, mem_delete, List.mem_cons]
    tauto

end OrderedSet
end RecordNode.Foundation
