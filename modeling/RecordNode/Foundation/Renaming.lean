import Mathlib.Data.Set.Function
import RecordNode.Foundation.OrderedMap

/-! # Renamed keys

A set or a map under other names: each key of one is the image of a key of the other, in the
same order. Names that tell the keys in use apart commute with every operation, so the two
have the same sizes, the same answers and the same values. -/

namespace RecordNode.Foundation

variable {α β ν : Type*} {ids : Set α} {f : α → β}

/-- The second set is the first with its elements renamed. -/
structure RenamesSet (ids : Set α) (f : α → β) (s : OrderedSet α) (t : OrderedSet β) : Prop where
  within : ∀ a ∈ s, a ∈ ids
  items : t.items = s.items.map f

namespace RenamesSet

variable {s : OrderedSet α} {t : OrderedSet β}

theorem empty : RenamesSet ids f .empty .empty := ⟨fun _ h => absurd h (OrderedSet.mem_empty _), rfl⟩

theorem size_eq (h : RenamesSet ids f s t) : t.size = s.size := by
  rw [OrderedSet.size, h.items, List.length_map, OrderedSet.size]

theorem mem_iff (h : RenamesSet ids f s t) (hinj : Set.InjOn f ids) {a : α} (ha : a ∈ ids) : f a ∈ t ↔ a ∈ s := by
  change f a ∈ t.items ↔ a ∈ s.items
  rw [h.items, List.mem_map]
  constructor
  · rintro ⟨b, hb, hab⟩
    exact hinj (h.within b hb) ha hab ▸ hb
  · exact fun hs => ⟨a, hs, rfl⟩

variable [DecidableEq α] [DecidableEq β]

theorem add (h : RenamesSet ids f s t) (hinj : Set.InjOn f ids) {a : α} (ha : a ∈ ids) :
    RenamesSet ids f (s.add a) (t.add (f a)) := by
  refine ⟨?_, ?_⟩
  · intro b hb
    rcases (s.mem_add a b).mp hb with rfl | hb
    · exact ha
    · exact h.within b hb
  · by_cases hs : a ∈ s
    · rw [OrderedSet.add, dif_pos ((h.mem_iff hinj ha).mpr hs), OrderedSet.add, dif_pos hs, h.items]
    · rw [OrderedSet.items_add hs, OrderedSet.items_add fun ht => hs ((h.mem_iff hinj ha).mp ht), h.items, List.map_append]
      rfl

end RenamesSet

section Items
variable [DecidableEq α] [DecidableEq β]

theorem setItems_map (hinj : Set.InjOn f ids) {a : α} (ha : a ∈ ids) (v : ν) {l : List (α × ν)} (hl : ∀ p ∈ l, p.1 ∈ ids) :
    OrderedMap.setItems (f a) v (l.map (Prod.map f id)) = (OrderedMap.setItems a v l).map (Prod.map f id) := by
  induction l with
  | nil => rfl
  | cons p rest ih =>
    obtain ⟨x, w⟩ := p
    obtain ⟨hp, hrest⟩ := List.forall_mem_cons.mp hl
    rw [List.map_cons, Prod.map_apply, OrderedMap.setItems, OrderedMap.setItems, ih hrest]
    by_cases hx : x = a
    · rw [if_pos hx, if_pos (congrArg f hx)]
      rfl
    · have hne : f x ≠ f a := fun h => hx (hinj hp ha h)
      rw [if_neg hx, if_neg hne]
      rfl

theorem lookup_map (hinj : Set.InjOn f ids) {a : α} (ha : a ∈ ids) {l : List (α × ν)} (hl : ∀ p ∈ l, p.1 ∈ ids) :
    (l.map (Prod.map f id)).lookup (f a) = l.lookup a := by
  induction l with
  | nil => rfl
  | cons p rest ih =>
    obtain ⟨x, v⟩ := p
    obtain ⟨hp, hrest⟩ := List.forall_mem_cons.mp hl
    have hkeys : (f a == f x) = (a == x) := by
      rw [Bool.eq_iff_iff, beq_iff_eq, beq_iff_eq]
      exact ⟨fun h => hinj ha hp h, congrArg f⟩
    rw [List.map_cons, Prod.map_apply, List.lookup_cons, List.lookup_cons, hkeys, ih hrest]
    rfl

end Items

/-- The second map is the first with its keys renamed. -/
structure RenamesMap (ids : Set α) (f : α → β) (m : OrderedMap α ν) (n : OrderedMap β ν) : Prop where
  within : ∀ p ∈ m.items, p.1 ∈ ids
  items : n.items = m.items.map (Prod.map f id)

namespace RenamesMap

variable {m : OrderedMap α ν} {n : OrderedMap β ν}

theorem empty : RenamesMap ids f (.empty : OrderedMap α ν) .empty := ⟨fun _ h => absurd h List.not_mem_nil, rfl⟩

theorem values_eq (h : RenamesMap ids f m n) : n.values = m.values := by
  rw [OrderedMap.values, h.items, List.map_map, OrderedMap.values]
  rfl

variable [DecidableEq α] [DecidableEq β]

theorem get_eq (h : RenamesMap ids f m n) (hinj : Set.InjOn f ids) {a : α} (ha : a ∈ ids) : n.get (f a) = m.get a := by
  rw [OrderedMap.get, h.items, lookup_map hinj ha h.within, OrderedMap.get]

theorem set (h : RenamesMap ids f m n) (hinj : Set.InjOn f ids) {a : α} (ha : a ∈ ids) (v : ν) :
    RenamesMap ids f (m.set a v) (n.set (f a) v) := by
  refine ⟨?_, ?_⟩
  · intro p hp
    have hkey : p.1 ∈ (OrderedMap.setItems a v m.items).map Prod.fst := List.mem_map_of_mem hp
    rcases (OrderedMap.mem_keys_setItems a v m.items p.1).mp hkey with heq | hold
    · exact heq ▸ ha
    · obtain ⟨q, hq, heq⟩ := List.mem_map.mp hold
      exact heq ▸ h.within q hq
  · change OrderedMap.setItems (f a) v n.items = (OrderedMap.setItems a v m.items).map (Prod.map f id)
    rw [h.items, setItems_map hinj ha v h.within]

end RenamesMap

end RecordNode.Foundation
