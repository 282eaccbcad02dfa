import RecordNode.Foundation.OrderedMap
import RecordNode.Entry.Operations

/-! # The oplog of one library

The entry DAG with every index the source keeps beside it. `Parent` and `Past`
are the DAG's own relations, read off the entries alone; the indexes are related
to them only by the invariants proved later. -/

namespace RecordNode

open Foundation Relation

structure Oplog where
  chain : ResolvedAcChain
  entries : OrderedMap Hash VerifiedEntry
  heads : OrderedSet Hash
  referenced : OrderedSet Hash
  keyEntries : OrderedMap String (OrderedSet Hash)
  current : OrderedMap String VerifiedEntry
  capabilities : OrderedMap Hash VerifiedEntry
  revocations : OrderedMap Hash VerifiedEntry
  delegated : OrderedSet Hash
  effective : OrderedSet Hash
  inert : OrderedSet Hash

/-- An oplog exists only over a verified access-control chain. -/
def createOplog (chain : ResolvedAcChain) : Oplog where
  chain := chain
  entries := .empty
  heads := .empty
  referenced := .empty
  keyEntries := .empty
  current := .empty
  capabilities := .empty
  revocations := .empty
  delegated := .empty
  effective := .empty
  inert := .empty

def isWriteListKey (o : Oplog) (key : String) : Bool := o.chain.writeList.contains key

def clockOf (o : Oplog) (hash : Hash) : ℕ := ((o.entries.get hash).map VerifiedEntry.time).getD 0

namespace Oplog

/-- The oplog holds this entry, under its own hash. -/
def Holds (o : Oplog) (e : VerifiedEntry) : Prop := o.entries.get e.hash = some e

def Has (o : Oplog) (hash : Hash) : Prop := ∃ e, o.entries.get hash = some e

/-- `parent` is named in the `next` of the held entry `child`. -/
def Parent (o : Oplog) (child parent : Hash) : Prop :=
  ∃ e, o.entries.get child = some e ∧ parent ∈ e.next

/-- The causal past of an entry with this `next`: what its parents reach. -/
def Past (o : Oplog) (next : List Hash) (hash : Hash) : Prop :=
  ∃ s ∈ next, ReflTransGen o.Parent s hash

theorem past_of_mem {o : Oplog} {next : List Hash} {hash : Hash} (h : hash ∈ next) :
    o.Past next hash :=
  ⟨hash, h, ReflTransGen.refl⟩

/-- The past of a past entry is past. -/
theorem Past.trans {o : Oplog} {next : List Hash} {x y : Hash} {e : VerifiedEntry}
    (hx : o.Past next x) (he : o.entries.get x = some e) (hy : o.Past e.next y) : o.Past next y := by
  obtain ⟨s, hs, hr⟩ := hx
  obtain ⟨p, hp, hq⟩ := hy
  exact ⟨s, hs, hr.trans (ReflTransGen.head ⟨e, he, hp⟩ hq)⟩

end Oplog

/-- What judging an entry relies on: entries sit under their own hashes, parents are held
and strictly older, an entry signed outside the write list cites a capability in its
past, and the revocation index lists the held revocations. -/
structure Grounded (o : Oplog) : Prop where
  keyed : ∀ h e, o.entries.get h = some e → e.hash = h
  closed : ∀ h e, o.entries.get h = some e → ∀ p ∈ e.next, o.Has p
  older : ∀ h e, o.entries.get h = some e → ∀ p ∈ e.next, ∀ q, o.entries.get p = some q → q.time < e.time
  cited : ∀ h e, o.entries.get h = some e → isWriteListKey o e.signer = false →
    ∃ c ce, e.operation.capabilityId = some c ∧ o.entries.get c = some ce ∧
      ce.operation.isCapability = true ∧ o.Past e.next c
  revocations : ∀ h e, o.revocations.get h = some e ↔
    o.entries.get h = some e ∧ e.operation.isRevocation = true

namespace Grounded

variable {o : Oplog}

/-- Clock times only fall along a path towards the past. -/
theorem clockOf_le_of_reach (g : Grounded o) {s h : Hash} (hr : ReflTransGen o.Parent s h) :
    clockOf o h ≤ clockOf o s := by
  induction hr using ReflTransGen.head_induction_on with
  | refl => exact Nat.le_refl _
  | head hp hrest ih =>
    obtain ⟨e, he, hm⟩ := hp
    obtain ⟨q, hq⟩ := g.closed _ e he _ hm
    have hlt := g.older _ e he _ hm q hq
    simp only [clockOf, he, hq, Option.map_some, Option.getD_some] at ih ⊢
    omega

/-- An entry's past is strictly older than the entry. -/
theorem time_lt_of_past (g : Grounded o) {e a : VerifiedEntry} {h x : Hash}
    (he : o.entries.get h = some e) (hp : o.Past e.next x) (ha : o.entries.get x = some a) :
    a.time < e.time := by
  obtain ⟨s, hs, hr⟩ := hp
  obtain ⟨q, hq⟩ := g.closed h e he s hs
  have hlt := g.older h e he s hs q hq
  have hle := g.clockOf_le_of_reach hr
  simp only [clockOf, ha, hq, Option.map_some, Option.getD_some] at hle
  omega

end Grounded

end RecordNode
