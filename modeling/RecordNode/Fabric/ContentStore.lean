import RecordNode.Foundation.OrderedMap
import RecordNode.Entry.Signed

/-! # The content store

Protocol blocks by the text of their CID. A put is checked against the digest, so
a block sits under the hash of its bytes; where digests do not collide, a put
never replaces what is there. -/

namespace RecordNode

open Foundation

abbrev BlockStore := OrderedMap Hash Bytes

/-- `content_store.put`: refused when the bytes do not hash to the CID. -/
def putBlock (E : Environment) (store : BlockStore) (cid : Hash) (bytes : Bytes) : Checked BlockStore := do
  require (computeCidString E bytes = cid) .cidMismatch s!"bytes do not hash to {cid}"
  return store.set cid bytes

/-- The second store still has everything the first has. -/
def Grows (store later : BlockStore) : Prop := ∀ h b, store.get h = some b → later.get h = some b

/-- Blocks are stored under the hash of their bytes. -/
def Addressed (E : Environment) (U : Set Bytes) (store : BlockStore) : Prop :=
  ∀ h b, store.get h = some b → computeCidString E b = h ∧ b ∈ U

variable {E : Environment} {U : Set Bytes}

/-- A put adds the one block; where digests do not collide, it overwrites nothing. -/
theorem putBlock_spec (hinj : Set.InjOn E.sha3 U) {store later : BlockStore} (ha : Addressed E U store)
    {cid : Hash} {b : Bytes} (hb : b ∈ U) (h : putBlock E store cid b = .ok later) :
    Addressed E U later ∧ Grows store later ∧ later.get cid = some b := by
  simp only [putBlock, bind_eq_ok, require_eq_ok_iff, decide_eq_true_eq] at h
  obtain ⟨⟨⟩, hcid, hres⟩ := h
  cases Except.ok.inj hres
  refine ⟨fun x c hx => ?_, fun x c hx => ?_, by simp⟩
  · rw [OrderedMap.get_set] at hx
    split at hx
    case isTrue heq =>
      obtain rfl := Option.some_inj.mp hx
      exact ⟨hcid.trans heq.symm, hb⟩
    case isFalse => exact ha x c hx
  · rw [OrderedMap.get_set]
    split
    case isTrue heq =>
      subst heq
      obtain ⟨hx', hc⟩ := ha x c hx
      rw [hinj hc hb (formatProtocolCid_injective (hx'.trans hcid.symm))]
    case isFalse => exact hx

end RecordNode
