import RecordNode.Foundation.Comparator
import RecordNode.Oplog.State

/-! # Current-state resolution

Sort by clock time and timestamp downwards, then by the raw multihash bytes, and
take the first. The order is total on entries with distinct hashes, so the
result depends on which entries compete and never on how they are listed. -/

namespace RecordNode

open Foundation

def compareBytes : Bytes → Bytes → ℚ
  | x :: a, y :: b => orElse ((x.toNat : ℚ) - y.toNat) (compareBytes a b)
  | a, b => (a.length : ℚ) - b.length

/-- A PUT carries its record's timestamp and a DEL its own, both at `value.timestamp`. -/
def envelopeTimestamp (h : HashedEntry) : ℚ :=
  match ((h.entry.payload.fields?.bind fun payload => payload.get "value").bind Value.fields?).bind
      fun value => (value.get "timestamp").bind Value.asNumber? with
  | some timestamp => timestamp
  | none => 0

def compareCurrentState (a b : HashedEntry) : ℚ :=
  orElse ((b.entry.clock.time : ℚ) - a.entry.clock.time)
    (orElse (envelopeTimestamp b - envelopeTimestamp a) (compareBytes a.multihash b.multihash))

def resolveCurrentState (entries : List VerifiedEntry) : Option VerifiedEntry :=
  firstLeast (fun a b => compareCurrentState a.toHashedEntry b.toHashedEntry) entries

/-- The order in which delegated revocations are judged. -/
def compareRevocations (a b : HashedEntry) : ℚ :=
  orElse ((a.entry.clock.time : ℚ) - b.entry.clock.time)
    (orElse (envelopeTimestamp a - envelopeTimestamp b) (compareBytes a.multihash b.multihash))

/-! ## Both orders follow a key that ends in the multihash -/

theorem compareBytes_swap (a b : Bytes) : compareBytes b a = -compareBytes a b := by
  induction a generalizing b with
  | nil => cases b <;> simp [compareBytes]
  | cons x a ih => cases b with
    | nil => simp [compareBytes]
    | cons y b =>
      simp only [compareBytes, orElse, ih b]
      by_cases hxy : (x.toNat : ℚ) = y.toNat
      · simp [hxy]
      · rw [if_neg (sub_ne_zero.mpr hxy), if_neg (sub_ne_zero.mpr (Ne.symm hxy)), neg_sub]

theorem compareBytes_neg_iff (a b : Bytes) :
    compareBytes a b < 0 ↔ a.map UInt8.toNat < b.map UInt8.toNat := by
  induction a generalizing b with
  | nil => cases b with
    | nil => simp [compareBytes]
    | cons y b =>
      have hlen : (0 : ℚ) < (y :: b).length := by exact_mod_cast Nat.succ_pos _
      have hn : compareBytes [] (y :: b) < 0 := by
        rw [compareBytes, List.length_nil, Nat.cast_zero, zero_sub]
        · exact neg_neg_of_pos hlen
        · simp
      simp [hn]
  | cons x a ih => cases b with
    | nil =>
      have hlen : (0 : ℚ) ≤ (x :: a).length := by exact_mod_cast Nat.zero_le _
      simpa [compareBytes] using hlen
    | cons y b =>
      simp only [compareBytes, orElse, List.map_cons, List.cons_lt_cons_iff, ← ih b]
      by_cases hxy : x.toNat = y.toNat
      · simp [hxy]
      · have hne : (x.toNat : ℚ) - y.toNat ≠ 0 := sub_ne_zero.mpr (by exact_mod_cast hxy)
        have hlt : (x.toNat : ℚ) - y.toNat < 0 ↔ x.toNat < y.toNat := by
          rw [sub_neg, Nat.cast_lt]
        simp [hne, hlt, hxy]

theorem compareBytes_follows (f : VerifiedEntry → Bytes) :
    Follows (fun a b => compareBytes (f a) (f b)) (fun a => (f a).map UInt8.toNat) where
  lt_iff a b := compareBytes_neg_iff (f a) (f b)
  le_iff a b := by
    rw [← not_lt (b := List.map UInt8.toNat (f a)), ← compareBytes_neg_iff, compareBytes_swap (f a),
      neg_neg_iff_pos, not_lt]

abbrev multihashKey (e : VerifiedEntry) : List ℕ := e.multihash.map UInt8.toNat

theorem hash_eq_of_multihashKey_eq {a b : VerifiedEntry} (h : multihashKey a = multihashKey b) :
    a.hash = b.hash :=
  HashedEntry.hash_eq_of_multihash_eq (List.map_injective_iff.mpr (fun _ _ => UInt8.toNat_inj.mp) h)

theorem compareCurrentState_follows :
    Follows (fun a b : VerifiedEntry => compareCurrentState a.toHashedEntry b.toHashedEntry)
      (fun a => toLex (OrderDual.toDual (a.time : ℚ),
        toLex (OrderDual.toDual (envelopeTimestamp a.toHashedEntry), multihashKey a))) :=
  (follows_sub_desc fun a : VerifiedEntry => (a.time : ℚ)).orElse
    ((follows_sub_desc fun a : VerifiedEntry => envelopeTimestamp a.toHashedEntry).orElse
      (compareBytes_follows fun a => a.multihash))

theorem compareRevocations_follows :
    Follows (fun a b : VerifiedEntry => compareRevocations a.toHashedEntry b.toHashedEntry)
      (fun a => toLex ((a.time : ℚ), toLex (envelopeTimestamp a.toHashedEntry, multihashKey a))) :=
  (follows_sub fun a : VerifiedEntry => (a.time : ℚ)).orElse
    ((follows_sub fun a : VerifiedEntry => envelopeTimestamp a.toHashedEntry).orElse
      (compareBytes_follows fun a => a.multihash))

/-- The listed entries are told apart by their hashes. -/
def HashInjective (l : List VerifiedEntry) : Prop := ∀ a ∈ l, ∀ b ∈ l, a.hash = b.hash → a = b

/-- The winner is the one candidate that compares below every other. -/
theorem resolveCurrentState_eq_some_iff {l : List VerifiedEntry} (hl : HashInjective l)
    (e : VerifiedEntry) : resolveCurrentState l = some e ↔
      e ∈ l ∧ ∀ x ∈ l, x = e ∨ compareCurrentState e.toHashedEntry x.toHashedEntry < 0 := by
  refine firstLeast_eq_some_iff compareCurrentState_follows (fun a ha b hb hab => hl a ha b hb ?_) e
  simp only [toLex_inj, Prod.mk.injEq] at hab
  exact hash_eq_of_multihashKey_eq hab.2.2

theorem resolveCurrentState_eq_none_iff (l : List VerifiedEntry) :
    resolveCurrentState l = none ↔ l = [] := by
  rcases firstLeast_spec compareCurrentState_follows l with ⟨rfl, hn⟩ | ⟨m, hm, hs, -⟩
  · exact ⟨fun _ => rfl, fun _ => hn⟩
  · have hne : l ≠ [] := List.ne_nil_of_mem hm
    simp [resolveCurrentState, hs, hne]

theorem sortBy_compareRevocations_eq {l m : List VerifiedEntry} (hl : HashInjective l) (hp : l.Perm m) :
    sortBy (fun a b => compareRevocations a.toHashedEntry b.toHashedEntry) l =
      sortBy (fun a b => compareRevocations a.toHashedEntry b.toHashedEntry) m := by
  refine sortBy_eq_of_perm compareRevocations_follows hp fun a ha b hb hab => hl a ha b hb ?_
  simp only [toLex_inj, Prod.mk.injEq] at hab
  exact hash_eq_of_multihashKey_eq hab.2.2

end RecordNode
