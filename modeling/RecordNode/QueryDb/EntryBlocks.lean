import RecordNode.Oplog.Merge

/-! # The entry block cache

One library's rows in the index: its signed-entry blocks in the order they were
first written, and the heads last recorded as verified with the version of the
rules they were verified under. -/

namespace RecordNode

open Foundation

/-- `VERIFICATION_RULES_VERSION`. -/
def verificationRulesVersion : ℕ := 2

/-- `[...heads].sort()`. -/
def sortHeads (heads : List Hash) : List Hash := sortBy compareText heads

structure VerifiedHeads where
  heads : List Hash
  rulesVersion : ℕ

structure EntryBlockCache where
  blocks : OrderedMap Hash Bytes
  verified : Option VerifiedHeads

structure CachedEntryBlocks where
  blocks : List Bytes
  verifiedHeads : Option (List Hash)

namespace EntryBlockCache

def empty : EntryBlockCache := ⟨.empty, none⟩

/-- `INSERT OR IGNORE`: a block already cached is kept. -/
def insert (blocks : OrderedMap Hash Bytes) (e : VerifiedEntry) : OrderedMap Hash Bytes :=
  if blocks.has e.hash then blocks else blocks.set e.hash e.bytes

def insertAll (blocks : OrderedMap Hash Bytes) (entries : List VerifiedEntry) : OrderedMap Hash Bytes :=
  entries.foldl insert blocks

def recordVerified (heads : List Hash) : VerifiedHeads := ⟨sortHeads heads, verificationRulesVersion⟩

def load (cache : EntryBlockCache) : CachedEntryBlocks where
  blocks := cache.blocks.values
  verifiedHeads := (cache.verified.filter fun v => v.rulesVersion = verificationRulesVersion).map
    VerifiedHeads.heads

def save (cache : EntryBlockCache) (entries : List VerifiedEntry) (heads : List Hash) : EntryBlockCache :=
  ⟨insertAll cache.blocks entries, some (recordVerified heads)⟩

def replace (entries : List VerifiedEntry) (heads : List Hash) : EntryBlockCache :=
  ⟨insertAll .empty entries, some (recordVerified heads)⟩

def markVerified (cache : EntryBlockCache) (heads : List Hash) : EntryBlockCache :=
  { cache with verified := some (recordVerified heads) }

/-- A cached block was cached before or is that of a saved entry. -/
theorem insertAll_mem {blocks : OrderedMap Hash Bytes} {entries : List VerifiedEntry} {h : Hash} {b : Bytes}
    (hb : (insertAll blocks entries).get h = some b) :
    blocks.get h = some b ∨ ∃ e ∈ entries, e.hash = h ∧ e.bytes = b := by
  induction entries generalizing blocks with
  | nil => exact Or.inl hb
  | cons e rest ih =>
    have hb : (insertAll (insert blocks e) rest).get h = some b := hb
    rcases ih hb with hb | ⟨x, hx, hxh⟩
    · unfold insert at hb
      split at hb
      · exact Or.inl hb
      · rw [OrderedMap.get_set] at hb
        split at hb
        case isTrue heq => exact Or.inr ⟨e, List.mem_cons_self, heq.symm, Option.some_inj.mp hb⟩
        case isFalse => exact Or.inl hb
    · exact Or.inr ⟨x, List.mem_cons_of_mem _ hx, hxh⟩

theorem has_insertAll (blocks : OrderedMap Hash Bytes) (entries : List VerifiedEntry) (h : Hash) :
    (insertAll blocks entries).has h = true ↔ blocks.has h = true ∨ ∃ e ∈ entries, e.hash = h := by
  induction entries generalizing blocks with
  | nil => simp [insertAll]
  | cons e rest ih =>
    have hstep : (insert blocks e).has h = true ↔ blocks.has h = true ∨ e.hash = h := by
      unfold insert
      split
      case isTrue he =>
        rw [iff_self_or]
        rintro rfl
        exact he
      case isFalse =>
        rw [OrderedMap.has_set]
        by_cases he : h = e.hash
        · simp [he]
        · simp [he, Ne.symm he]
    have hcons : insertAll blocks (e :: rest) = insertAll (insert blocks e) rest := rfl
    simp only [hcons, ih, hstep, List.mem_cons, exists_eq_or_imp, or_assoc]

end EntryBlockCache

end RecordNode
