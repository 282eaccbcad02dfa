import RecordNode.Foundation.Search
import RecordNode.Oplog.State

/-! # Causal past

The walk that looks for one ancestor. Clock times grow along `next`, so it never
descends past the ancestor's clock; on a grounded oplog that pruning loses
nothing, and the walk decides `Past`. -/

namespace RecordNode

open Foundation Relation

/-- The parents the walk pushes: none at or below the floor. The stack's top is the
last element pushed, which is the head of the list here. -/
def parentsAbove (entries : OrderedMap Hash VerifiedEntry) (floor : ℕ) (hash : Hash) : List Hash :=
  match entries.get hash with
  | some e => if floor < e.time then e.next.reverse else []
  | none => []

def inCausalPast (entries : OrderedMap Hash VerifiedEntry) (ancestor : Hash) (next : List Hash) : Bool :=
  match entries.get ancestor with
  | none => false
  | some a =>
    let expand := parentsAbove entries a.time
    search expand ancestor (searchBound expand entries.keys next.reverse) next.reverse .empty

/-- The loop of the walk cut off after `n` turns, with no answer when it has not ended by then. -/
def inCausalPastWithin (n : ℕ) (entries : OrderedMap Hash VerifiedEntry) (ancestor : Hash) (next : List Hash) :
    Option Bool :=
  match entries.get ancestor with
  | none => some false
  | some a => searchLoop (parentsAbove entries a.time) ancestor n next.reverse .empty

theorem mem_parentsAbove {entries : OrderedMap Hash VerifiedEntry} {floor : ℕ} {x y : Hash} :
    y ∈ parentsAbove entries floor x ↔ ∃ e, entries.get x = some e ∧ floor < e.time ∧ y ∈ e.next := by
  unfold parentsAbove
  cases h : entries.get x with
  | none => simp
  | some e =>
    by_cases hf : floor < e.time
    · simp [hf]
    · simp [hf]

theorem parentsAbove_of_not_mem (entries : OrderedMap Hash VerifiedEntry) (floor : ℕ) (x : Hash)
    (h : x ∉ entries.keys) : parentsAbove entries floor x = [] := by
  have hn : entries.get x = none := by
    cases hg : entries.get x with
    | none => rfl
    | some e => exact absurd ((entries.mem_keys_iff x).mpr ⟨e, hg⟩) h
  simp [parentsAbove, hn]

theorem inCausalPast_iff_search {entries : OrderedMap Hash VerifiedEntry} {ancestor : Hash}
    {next : List Hash} : inCausalPast entries ancestor next = true ↔
      ∃ a, entries.get ancestor = some a ∧
        ∃ s ∈ next, ReflTransGen (Edge (parentsAbove entries a.time)) s ancestor := by
  unfold inCausalPast
  cases h : entries.get ancestor with
  | none => simp
  | some a =>
    simp only [Option.some.injEq, exists_eq_left']
    rw [search_iff _ _ entries.keys (parentsAbove_of_not_mem entries a.time) _ _ (Nat.le_refl _)]
    simp only [List.mem_reverse]

/-- Whatever the entries hold, the loop ends, and the answer stays from then on. -/
theorem exists_inCausalPastWithin (entries : OrderedMap Hash VerifiedEntry) (ancestor : Hash) (next : List Hash) :
    ∃ bound, ∀ n, bound ≤ n → inCausalPastWithin n entries ancestor next = some (inCausalPast entries ancestor next) := by
  cases ha : entries.get ancestor with
  | none => exact ⟨0, fun n _ => by simp only [inCausalPastWithin, inCausalPast, ha]⟩
  | some a =>
    have hnodes := parentsAbove_of_not_mem entries a.time
    refine ⟨searchBound (parentsAbove entries a.time) entries.keys next.reverse, fun n hn => ?_⟩
    simp only [inCausalPastWithin, inCausalPast, ha]
    rw [searchLoop_eq _ _ entries.keys hnodes n _ hn, Option.some_inj, Bool.eq_iff_iff,
      search_iff _ _ entries.keys hnodes n _ hn, search_iff _ _ entries.keys hnodes _ _ (Nat.le_refl _)]

variable {o : Oplog}

/-- A path to the ancestor stays above its clock, so the pruned edges carry it too. -/
theorem Grounded.reach_pruned (g : Grounded o) {s h : Hash} {a : VerifiedEntry}
    (ha : o.entries.get h = some a) (hr : ReflTransGen o.Parent s h) :
    ReflTransGen (Edge (parentsAbove o.entries a.time)) s h := by
  induction hr using ReflTransGen.head_induction_on with
  | refl => exact ReflTransGen.refl
  | head hp hrest ih =>
    obtain ⟨e, he, hm⟩ := hp
    have hlt : a.time < e.time := g.time_lt_of_past he ⟨_, hm, hrest⟩ ha
    exact ReflTransGen.head (mem_parentsAbove.mpr ⟨e, he, hlt, hm⟩) ih

/-- On a grounded oplog the walk decides membership in the causal past. -/
theorem Grounded.inCausalPast_iff (g : Grounded o) {ancestor : Hash} {next : List Hash} :
    inCausalPast o.entries ancestor next = true ↔ o.Has ancestor ∧ o.Past next ancestor := by
  rw [inCausalPast_iff_search]
  constructor
  · rintro ⟨a, ha, s, hs, hr⟩
    refine ⟨⟨a, ha⟩, s, hs, ReflTransGen.mono (fun x y hxy => ?_) s ancestor hr⟩
    obtain ⟨e, he, -, hm⟩ := mem_parentsAbove.mp hxy
    exact ⟨e, he, hm⟩
  · rintro ⟨⟨a, ha⟩, s, hs, hr⟩
    exact ⟨a, ha, s, hs, g.reach_pruned ha hr⟩

end RecordNode
