import RecordNode.Encoding.Environment
import RecordNode.Foundation.OrderedMap

/-! # The tables of the pin index

`block_pins` holds, for each covered block, how many pins cover it, and
`root_pins` the kind of each pinned root. Both are keyed on the multihash. A pin
and an unpin change them in one transaction over the blocks their walk met. -/

namespace RecordNode

open Foundation

abbrev Multihash := Bytes

/-- A CID of version 0 is always a dag-pb one. -/
inductive Cid where
  | v0 (multihash : Multihash)
  | v1 (code : ℕ) (multihash : Multihash)
deriving DecidableEq

/-- An unsigned varint, seven bits a byte, the least significant first. -/
def varint (n : ℕ) : Bytes :=
  if n < 128 then [n.toUInt8] else (n % 128 + 128).toUInt8 :: varint (n / 128)

namespace Cid

def code : Cid → ℕ
  | v0 _ => dagPbCode
  | v1 code _ => code

def multihash : Cid → Multihash
  | v0 multihash => multihash
  | v1 _ multihash => multihash

/-- `format_cid`: the text in base58btc, which version 0 writes without its prefix letter. -/
def format : Cid → String
  | v0 multihash => Base58.encode multihash
  | v1 code multihash => "z" ++ Base58.encode (varint 1 ++ varint code ++ multihash)

end Cid

structure PinTables where
  blockPins : OrderedMap Multihash ℕ
  rootPins : OrderedMap Multihash Bool

namespace PinTables

def empty : PinTables := ⟨.empty, .empty⟩

/-- The kind of the pin on this root: recursive, direct or none. -/
def rootKind (t : PinTables) (cid : Cid) : Option Bool := t.rootPins.get cid.multihash

def isPinned (t : PinTables) (cid : Cid) : Bool := t.blockPins.has cid.multihash

def reference (blockPins : OrderedMap Multihash ℕ) (key : Multihash) : OrderedMap Multihash ℕ :=
  blockPins.set key ((blockPins.get key).getD 0 + 1)

/-- `dereference`, which changes no row when there is none, then `drop_released`. -/
def dereference (blockPins : OrderedMap Multihash ℕ) (key : Multihash) : OrderedMap Multihash ℕ :=
  match blockPins.get key with
  | none => blockPins
  | some refs => if refs - 1 = 0 then blockPins.delete key else blockPins.set key (refs - 1)

/-- The transaction of a pin over a root of this kind. A direct pin already counts the root itself. -/
def countPin (t : PinTables) (kind : Option Bool) (cid : Cid) (recursive : Bool) (covered : List Cid) :
    PinTables where
  blockPins := ((if kind = some false then covered.drop 1 else covered).map Cid.multihash).foldl
    reference t.blockPins
  rootPins := t.rootPins.set cid.multihash recursive

/-- The transaction of an unpin. -/
def countUnpin (t : PinTables) (cid : Cid) (covered : List Cid) : PinTables where
  blockPins := (covered.map Cid.multihash).foldl dereference t.blockPins
  rootPins := t.rootPins.delete cid.multihash

/-- The row a count is stored as: none for nothing. -/
def row (n : ℕ) : Option ℕ := if n = 0 then none else some n

section Counting
variable {blockPins : OrderedMap Multihash ℕ} {refs : Multihash → ℕ}

theorem get_reference (h : ∀ m, blockPins.get m = row (refs m)) (key m : Multihash) :
    (reference blockPins key).get m = row (refs m + if m = key then 1 else 0) := by
  rw [reference, OrderedMap.get_set]
  by_cases hm : m = key
  · subst hm
    by_cases hz : refs m = 0 <;> simp [row, h, hz]
  · simp [hm, h]

theorem get_dereference (h : ∀ m, blockPins.get m = row (refs m)) (key m : Multihash) :
    (dereference blockPins key).get m = row (refs m - if m = key then 1 else 0) := by
  have hk := h key
  unfold dereference
  split
  case h_1 hn =>
    have hz : refs key = 0 := by
      by_contra hz
      simp [row, hz, hn] at hk
    by_cases hm : m = key
    · subst hm
      simp [hn, hz, row]
    · simp [hm, h]
  case h_2 n hs =>
    have hn : refs key = n := by
      rw [hs, row] at hk
      split at hk
      · cases hk
      · exact (Option.some_inj.mp hk).symm
    by_cases hm : m = key
    · subst hm
      split
      case isTrue hz => simp [row, hn, hz]
      case isFalse hz => simp [row, hn, hz]
    · split <;> simp [hm, h]

theorem get_foldl_reference (h : ∀ m, blockPins.get m = row (refs m)) (keys : List Multihash) (m : Multihash) :
    (keys.foldl reference blockPins).get m = row (refs m + keys.count m) := by
  induction keys generalizing blockPins refs with
  | nil => simpa using h m
  | cons key rest ih =>
    rw [List.foldl_cons, ih (get_reference h key), List.count_cons]
    congr 1
    simp only [beq_iff_eq, eq_comm (a := key)]
    omega

theorem get_foldl_dereference (h : ∀ m, blockPins.get m = row (refs m)) (keys : List Multihash) (m : Multihash) :
    (keys.foldl dereference blockPins).get m = row (refs m - keys.count m) := by
  induction keys generalizing blockPins refs with
  | nil => simpa using h m
  | cons key rest ih =>
    rw [List.foldl_cons, ih (get_dereference h key), List.count_cons]
    congr 1
    simp only [beq_iff_eq, eq_comm (a := key)]
    omega

end Counting

end PinTables

/-- The pins that are live: the CID each was made on, and whether it is recursive. -/
abbrev LivePins := OrderedMap Cid Bool

/-- How many live pins cover a block, where `covers` says what each of them covers. -/
def LivePins.covering (live : LivePins) (covers : Cid → Bool → Multihash → Bool) (m : Multihash) : ℕ :=
  live.items.countP fun p => covers p.1 p.2 m

/-- The tables count the live pins: a row for each covered block with the number of pins that
cover it, a root for each pin. No two live pins share a multihash. -/
structure Accounts (covers : Cid → Bool → Multihash → Bool) (t : PinTables) (live : LivePins) : Prop where
  refs : ∀ m, t.blockPins.get m = PinTables.row (live.covering covers m)
  roots : ∀ m k, t.rootPins.get m = some k ↔ ∃ cid, cid.multihash = m ∧ live.get cid = some k
  named : ∀ a b ka kb, live.get a = some ka → live.get b = some kb → a.multihash = b.multihash → a = b

/-- What a walk from a root has to return: the root first, every covered multihash once and no other. -/
structure Covered (covers : Cid → Bool → Multihash → Bool) (cid : Cid) (recursive : Bool)
    (covered : List Cid) : Prop where
  head : covered.head? = some cid
  once : (covered.map Cid.multihash).Nodup
  mem : ∀ m, m ∈ covered.map Cid.multihash ↔ covers cid recursive m = true

/-- No live pin on another CID has this multihash. -/
def Unaliased (live : LivePins) (cid : Cid) : Prop :=
  ∀ other k, live.get other = some k → other.multihash = cid.multihash → other = cid

namespace Accounts

variable {covers : Cid → Bool → Multihash → Bool} {t : PinTables} {live : LivePins} {cid : Cid}

theorem empty : Accounts covers .empty .empty where
  refs := fun _ => rfl
  roots := by simp [PinTables.empty]
  named := by simp

theorem rootKind_eq (h : Accounts covers t live) (hu : Unaliased live cid) :
    t.rootKind cid = live.get cid := by
  apply Option.ext
  intro k
  rw [PinTables.rootKind, h.roots]
  constructor
  · rintro ⟨other, hm, hk⟩
    exact hu other k hk hm ▸ hk
  · exact fun hk => ⟨cid, rfl, hk⟩

theorem isPinned_iff (h : Accounts covers t live) (c : Cid) :
    t.isPinned c = true ↔ ∃ cid k, live.get cid = some k ∧ covers cid k c.multihash = true := by
  have hrow : t.isPinned c = true ↔ 0 < live.covering covers c.multihash := by
    rw [PinTables.isPinned, OrderedMap.has, h.refs, PinTables.row]
    split <;> simp <;> omega
  rw [hrow, LivePins.covering, List.countP_pos_iff]
  constructor
  · rintro ⟨⟨cid, k⟩, hm, hc⟩
    exact ⟨cid, k, (live.get_eq_some_iff cid k).mpr hm, hc⟩
  · rintro ⟨cid, k, hm, hc⟩
    exact ⟨(cid, k), (live.get_eq_some_iff cid k).mp hm, hc⟩

theorem unaliased_of_get (h : Accounts covers t live) {k : Bool} (hk : live.get cid = some k) :
    Unaliased live cid :=
  fun other _ ho hm => h.named other cid _ k ho hk hm

/-- A pin that is not there yet, or that makes a direct one recursive, is counted. -/
theorem countPin (h : Accounts covers t live) (hu : Unaliased live cid) {recursive : Bool}
    {covered : List Cid} (hc : Covered covers cid recursive covered)
    (hdirect : live.get cid = some false → ∀ m, covers cid false m = true ↔ m = cid.multihash)
    (hk : live.get cid ≠ some true) :
    Accounts covers (t.countPin (live.get cid) cid recursive covered) (live.set cid recursive) where
  refs := by
    intro m
    have hcount : (covered.map Cid.multihash).count m = if covers cid recursive m then 1 else 0 := by
      rw [List.Nodup.count hc.once]
      exact if_congr (hc.mem m) rfl rfl
    rw [PinTables.countPin, PinTables.get_foldl_reference h.refs]
    congr 1
    rw [LivePins.covering, LivePins.covering, OrderedMap.countP_set, OrderedMap.countP_delete live cid, ← hcount]
    rcases hkind : live.get cid with _ | _ | _
    · simp
    · obtain ⟨rest, rfl⟩ : ∃ rest, covered = cid :: rest := List.head?_eq_some_iff.mp hc.head
      have hroot : (if covers cid false m = true then 1 else 0) = if cid.multihash = m then 1 else 0 :=
        if_congr ((hdirect hkind m).trans eq_comm) rfl rfl
      simp only [Option.elim_some, if_true, List.drop_succ_cons, List.drop_zero, List.map_cons, List.count_cons,
        beq_iff_eq, hroot]
      omega
    · exact absurd hkind hk
  roots := by
    intro m k
    rw [PinTables.countPin, OrderedMap.get_set]
    by_cases hm : m = cid.multihash
    · subst hm
      rw [if_pos rfl, Option.some_inj]
      constructor
      · rintro rfl
        exact ⟨cid, rfl, by simp⟩
      · rintro ⟨other, hm, ho⟩
        by_cases heq : other = cid
        · simpa [heq] using ho
        · rw [OrderedMap.get_set, if_neg heq] at ho
          exact absurd (hu other k ho hm) heq
    · rw [if_neg hm, h.roots]
      refine exists_congr fun other => and_congr_right fun ho => ?_
      rw [OrderedMap.get_set, if_neg]
      rintro rfl
      exact hm ho.symm
  named := by
    intro a b ka kb ha hb hab
    rw [OrderedMap.get_set] at ha hb
    split at ha <;> split at hb
    case isTrue.isTrue hca hcb => exact hca.trans hcb.symm
    case isTrue.isFalse hca hcb => exact hca.trans (hu b kb hb (hab.symm.trans (congrArg _ hca))).symm
    case isFalse.isTrue hca hcb => exact (hu a ka ha (hab.trans (congrArg _ hcb))).trans hcb.symm
    case isFalse.isFalse => exact h.named a b ka kb ha hb hab

/-- An unpin takes back what its pin counted. -/
theorem countUnpin (h : Accounts covers t live) {kind : Bool} (hk : live.get cid = some kind)
    {covered : List Cid} (hc : Covered covers cid kind covered) :
    Accounts covers (t.countUnpin cid covered) (live.delete cid) where
  refs := by
    intro m
    have hcount : (covered.map Cid.multihash).count m = if covers cid kind m then 1 else 0 := by
      rw [List.Nodup.count hc.once]
      exact if_congr (hc.mem m) rfl rfl
    rw [PinTables.countUnpin, PinTables.get_foldl_dereference h.refs]
    congr 1
    rw [LivePins.covering, LivePins.covering, OrderedMap.countP_delete live cid, hk, Option.elim_some, hcount]
    exact Nat.add_sub_cancel _ _
  roots := by
    intro m k
    rw [PinTables.countUnpin, OrderedMap.get_delete]
    by_cases hm : m = cid.multihash
    · subst hm
      rw [if_pos rfl]
      constructor
      · simp
      · rintro ⟨other, hm, ho⟩
        rw [OrderedMap.get_delete] at ho
        split at ho
        case isTrue => exact ho
        case isFalse hne => exact absurd (h.unaliased_of_get hk other k ho hm) hne
    · rw [if_neg hm, h.roots]
      refine exists_congr fun other => and_congr_right fun ho => ?_
      rw [OrderedMap.get_delete, if_neg]
      rintro rfl
      exact hm ho.symm
  named := by
    intro a b ka kb ha hb hab
    rw [OrderedMap.get_delete] at ha hb
    split at ha
    · cases ha
    · split at hb
      · cases hb
      · exact h.named a b ka kb ha hb hab

end Accounts

end RecordNode
