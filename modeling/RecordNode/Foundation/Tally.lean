import Mathlib.Algebra.BigOperators.Group.List.Basic
import Mathlib.Data.List.Dedup
import Mathlib.Tactic.Ring
import RecordNode.Foundation.OrderedMap

/-! # Tallies

A map that adds up the weights of items by key, one item after the other. A key's entry is
the sum over its items, the keys are those of the items, and the entries add up to the
whole weight. -/

namespace RecordNode.Foundation

variable {α κ : Type*} [DecidableEq κ]

/-- `map.set(key, (map.get(key) ?? 0) + weight)` over the items. -/
def tallyOnto (key : α → κ) (weight : α → ℕ) (counts : OrderedMap κ ℕ) (items : List α) : OrderedMap κ ℕ :=
  items.foldl (fun counts a => counts.set (key a) ((counts.get (key a)).getD 0 + weight a)) counts

def tallyBy (key : α → κ) (weight : α → ℕ) (items : List α) : OrderedMap κ ℕ := tallyOnto key weight .empty items

variable {key : α → κ} {weight : α → ℕ}

theorem get_tallyOnto (counts : OrderedMap κ ℕ) (items : List α) (k : κ) :
    ((tallyOnto key weight counts items).get k).getD 0 =
      (counts.get k).getD 0 + ((items.filter fun a => key a = k).map weight).sum := by
  induction items generalizing counts with
  | nil => rfl
  | cons a rest ih =>
    have hstep := ih (counts.set (key a) ((counts.get (key a)).getD 0 + weight a))
    rw [tallyOnto, List.foldl_cons, ← tallyOnto, hstep, OrderedMap.get_set]
    by_cases hk : key a = k
    · subst hk
      rw [if_pos rfl, List.filter_cons_of_pos (by simp), List.map_cons, List.sum_cons, Option.getD_some, Nat.add_assoc]
    · rw [if_neg (Ne.symm hk), List.filter_cons_of_neg (by simpa using hk)]

theorem get_tallyBy (items : List α) (k : κ) :
    ((tallyBy key weight items).get k).getD 0 = ((items.filter fun a => key a = k).map weight).sum := by
  rw [tallyBy, get_tallyOnto, OrderedMap.get_empty, Option.getD_none, Nat.zero_add]

theorem mem_keys_tallyOnto {counts : OrderedMap κ ℕ} {items : List α} {k : κ} :
    k ∈ (tallyOnto key weight counts items).keys ↔ k ∈ counts.keys ∨ ∃ a ∈ items, key a = k := by
  induction items generalizing counts with
  | nil => simp [tallyOnto]
  | cons a rest ih =>
    have hset : k ∈ (counts.set (key a) ((counts.get (key a)).getD 0 + weight a)).keys ↔ k = key a ∨ k ∈ counts.keys :=
      OrderedMap.mem_keys_setItems _ _ _ _
    rw [tallyOnto, List.foldl_cons, ← tallyOnto, ih, hset, List.exists_mem_cons_iff]
    tauto

theorem mem_keys_tallyBy {items : List α} {k : κ} : k ∈ (tallyBy key weight items).keys ↔ ∃ a ∈ items, key a = k := by
  rw [tallyBy, mem_keys_tallyOnto]
  simp [OrderedMap.keys, OrderedMap.empty]

theorem sum_setItems (l : List (κ × ℕ)) (k : κ) (w : ℕ) :
    ((OrderedMap.setItems k ((l.lookup k).getD 0 + w) l).map Prod.snd).sum = (l.map Prod.snd).sum + w := by
  induction l with
  | nil => simp [OrderedMap.setItems]
  | cons p rest ih =>
    obtain ⟨x, n⟩ := p
    rw [OrderedMap.setItems, List.lookup_cons]
    by_cases hx : x = k
    · subst hx
      simp only [if_true, beq_self_eq_true, List.map_cons, List.sum_cons, Option.getD_some]
      omega
    · have hne : (k == x) = false := beq_eq_false_iff_ne.mpr (Ne.symm hx)
      simp only [hx, if_false, hne, List.map_cons, List.sum_cons, ih]
      omega

theorem sum_tallyOnto (counts : OrderedMap κ ℕ) (items : List α) :
    (tallyOnto key weight counts items).values.sum = counts.values.sum + (items.map weight).sum := by
  induction items generalizing counts with
  | nil => rfl
  | cons a rest ih =>
    have hset : (counts.set (key a) ((counts.get (key a)).getD 0 + weight a)).values.sum = counts.values.sum + weight a :=
      sum_setItems counts.items (key a) (weight a)
    rw [tallyOnto, List.foldl_cons, ← tallyOnto, ih, hset, List.map_cons, List.sum_cons, Nat.add_assoc]

theorem sum_tallyBy (items : List α) : (tallyBy key weight items).values.sum = (items.map weight).sum := by
  rw [tallyBy, sum_tallyOnto]
  exact Nat.zero_add _

theorem sum_filter_key (m : OrderedMap κ ℕ) (k : κ) :
    ((m.items.filter fun p => p.1 = k).map Prod.snd).sum = (m.get k).getD 0 := by
  obtain ⟨l, hl⟩ := m
  change ((l.filter fun p => p.1 = k).map Prod.snd).sum = (l.lookup k).getD 0
  induction l with
  | nil => rfl
  | cons p rest ih =>
    obtain ⟨x, n⟩ := p
    obtain ⟨hx, hrest⟩ := List.nodup_cons.mp hl
    rw [List.lookup_cons]
    by_cases hk : x = k
    · subst hk
      have hnone : rest.filter (fun p => p.1 = x) = [] := by
        apply List.filter_eq_nil_iff.mpr
        intro p hp
        simpa using fun heq => hx (List.mem_map.mpr ⟨p, hp, heq⟩)
      rw [List.filter_cons_of_pos (by simp), hnone, beq_self_eq_true]
      exact Nat.add_zero n
    · have hne : (k == x) = false := beq_eq_false_iff_ne.mpr (Ne.symm hk)
      rw [List.filter_cons_of_neg (by simpa using hk), hne, ih hrest]

/-! ## Counting occurrences -/

section Count
variable [DecidableEq α]

/-- How often each item occurs. -/
def tally (items : List α) : OrderedMap α ℕ := tallyBy id (fun _ => 1) items

theorem get_tally (items : List α) (a : α) : ((tally items).get a).getD 0 = items.count a := by
  rw [tally, get_tallyBy, List.map_const', List.sum_replicate_nat, Nat.mul_one, List.count_eq_length_filter]
  rfl

theorem length_values_tally (items : List α) : (tally items).values.length = items.dedup.length := by
  have hperm : (tally items).keys.Perm items.dedup := by
    refine (List.perm_ext_iff_of_nodup (tally items).keys_nodup items.nodup_dedup).mpr fun a => ?_
    have hkeys : a ∈ (tally items).keys ↔ ∃ b ∈ items, id b = a := mem_keys_tallyBy
    refine hkeys.trans ?_
    simp
  rw [← hperm.length_eq, OrderedMap.values, OrderedMap.keys, List.length_map, List.length_map]

theorem sum_tally (items : List α) : (tally items).values.sum = items.length := by
  rw [tally, sum_tallyBy, List.map_const', List.sum_replicate_nat, Nat.mul_one]

end Count

end RecordNode.Foundation
