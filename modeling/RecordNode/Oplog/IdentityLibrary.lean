import RecordNode.Oplog.About
import RecordNode.Oplog.Growing

/-! # The state of an identity library

The libraries an identity claims, its links, its pins and its profile, read off the
slots of its oplog. A library is recorded by any PUT of it and retired for good by any
DEL; a link, a pin and the profile are what the winner of their slot says. Slots are per
type and key, and a key is the digest of what the record is about, so no two records
share one unless they are of one type and about the same thing. -/

namespace RecordNode

open Foundation

structure LibraryClaim where
  retired : Bool
  /-- The PUT that current-state order sorts last: the oldest. -/
  firstPut : VerifiedEntry

structure IdentityLibraryState where
  libraries : OrderedMap String LibraryClaim
  /-- The aliases of the addresses whose current link record is a PUT. -/
  links : OrderedMap String (Option String)
  pins : OrderedSet String
  profile : Option IdentityRecord

/-- The type of the record an identity operation writes. -/
def recordType? : Operation → Option IdentityRecordType
  | .identityPut _ value => some value.type
  | .identityDel _ type _ => some type
  | _ => none

def recordKey? : Operation → Option String
  | .identityPut key _ => some key
  | .identityDel key _ _ => some key
  | _ => none

/-- `operation_of`: the operation of an entry, if it is an identity operation. -/
def operationOf (entry : VerifiedEntry) : Option Operation :=
  if entry.operation.isIdentityOperation then some entry.operation else none

/-- The entry current-state order sorts last. -/
def leastEntry (entries : List VerifiedEntry) : Option VerifiedEntry :=
  entries.foldl (fun least entry =>
    match least with
    | none => some entry
    | some l => if compareCurrentState entry.toHashedEntry l.toHashedEntry > 0 then some entry else some l) none

namespace IdentityLibraryState

def empty : IdentityLibraryState := ⟨.empty, .empty, .empty, none⟩

variable (o : Oplog)

/-- The identity entries among these hashes. -/
def entriesOf (hashes : OrderedSet Hash) : List VerifiedEntry :=
  hashes.items.filterMap fun hash => (o.entries.get hash).bind fun e => (operationOf e).map fun _ => e

/-- The claim a slot of library records makes: the address is that of a PUT, since a DEL names only the key. -/
def claimOf (entries : List VerifiedEntry) : Option (String × LibraryClaim) :=
  match leastEntry (entries.filter fun e => e.operation.op? = some .put) with
  | none => none
  | some first =>
    match first.operation with
    | .identityPut _ (.library _ address) =>
      some (address, ⟨entries.any fun e => e.operation.op? = some .del, first⟩)
    | _ => none

/-- One turn of the loop over `key_entries`. -/
def addSlot (state : IdentityLibraryState) (slot : String × OrderedSet Hash) : IdentityLibraryState :=
  let entries := entriesOf o slot.2
  let current := (o.current.get slot.1).bind operationOf
  match entries.head?.bind fun e => recordType? e.operation with
  | some .library =>
    match claimOf entries with
    | some (address, claim) => { state with libraries := state.libraries.set address claim }
    | none => state
  | some .link =>
    match current with
    | some (.identityPut _ (.link _ address linkAlias)) => { state with links := state.links.set address linkAlias }
    | _ => state
  | some .pin =>
    match current with
    | some (.identityPut _ (.pin _ cid)) => { state with pins := state.pins.add cid }
    | _ => state
  | some .profile =>
    match current with
    | some (.identityPut _ (.profile timestamp name bio avatar)) =>
      { state with profile := some (.profile timestamp name bio avatar) }
    | _ => state
  | none => state

end IdentityLibraryState

def identityLibraryState (o : Oplog) : IdentityLibraryState :=
  o.keyEntries.items.foldl (IdentityLibraryState.addSlot o) .empty

/-! ## What each slot writes -/

namespace IdentityLibraryState

section Written
variable (o : Oplog) (slot : String × OrderedSet Hash)

/-- The type of the records of a slot. -/
def slotType : Option IdentityRecordType := (entriesOf o slot.2).head?.bind fun e => recordType? e.operation

/-- The record of the slot's current PUT, if that has the slot's type. -/
def currentRecord : Option IdentityRecord :=
  match (o.current.get slot.1).bind operationOf with
  | some (.identityPut _ value) => if slotType o slot = some value.type then some value else none
  | _ => none

def writtenClaim : Option (String × LibraryClaim) :=
  if slotType o slot = some .library then claimOf (entriesOf o slot.2) else none

def writtenLink : Option (String × Option String) :=
  match currentRecord o slot with
  | some (.link _ address linkAlias) => some (address, linkAlias)
  | _ => none

def writtenPin : Option String :=
  match currentRecord o slot with
  | some (.pin _ cid) => some cid
  | _ => none

def writtenProfile : Option IdentityRecord := (currentRecord o slot).filter fun record => record.type = .profile

theorem addSlot_eq (state : IdentityLibraryState) : addSlot o state slot =
    { libraries := match writtenClaim o slot with
        | some (address, claim) => state.libraries.set address claim
        | none => state.libraries
      links := match writtenLink o slot with
        | some (address, linkAlias) => state.links.set address linkAlias
        | none => state.links
      pins := match writtenPin o slot with
        | some cid => state.pins.add cid
        | none => state.pins
      profile := (writtenProfile o slot).or state.profile } := by
  unfold addSlot writtenClaim writtenLink writtenPin writtenProfile currentRecord slotType
  dsimp only
  generalize (entriesOf o slot.2).head?.bind (fun e => recordType? e.operation) = type
  generalize (o.current.get slot.1).bind operationOf = current
  cases type with
  | none => cases current with
    | none => rfl
    | some operation => cases operation <;> rfl
  | some type =>
    cases type with
    | library =>
      cases current with
      | none => cases claimOf (entriesOf o slot.2) <;> rfl
      | some operation =>
        cases operation with
        | identityPut key value => cases value <;> cases claimOf (entriesOf o slot.2) <;> rfl
        | _ => cases claimOf (entriesOf o slot.2) <;> rfl
    | link | pin | profile =>
      cases current with
      | none => rfl
      | some operation =>
        cases operation with
        | identityPut key value => cases value <;> rfl
        | _ => rfl

end Written

variable {E : Environment} {chain : ResolvedAcChain} {o : Oplog}

theorem foldl_addSlot (slots : List (String × OrderedSet Hash)) (state : IdentityLibraryState) :
    slots.foldl (addSlot o) state =
      ⟨state.libraries.setEach (writtenClaim o) slots, state.links.setEach (writtenLink o) slots,
        (slots.filterMap (writtenPin o)).foldl .add state.pins,
        slots.foldl (fun last slot => (writtenProfile o slot).or last) state.profile⟩ := by
  induction slots generalizing state with
  | nil => rfl
  | cons slot slots ih =>
    rw [List.foldl_cons, ih, addSlot_eq]
    simp only [OrderedMap.setEach, List.foldl_cons, List.filterMap_cons]
    cases writtenClaim o slot <;> cases writtenLink o slot <;> cases writtenPin o slot <;> rfl

end IdentityLibraryState

/-! ## Slots -/

/-- The slot of the records of this type and key. -/
def identitySlot (type : IdentityRecordType) (key : String) : String := type.name ++ ":" ++ key

theorem IdentityRecordType.not_mem_colon (type : IdentityRecordType) : ':' ∉ type.name.toList := by
  cases type <;> decide

theorem identitySlot_inj {type type' : IdentityRecordType} {key key' : String} :
    identitySlot type key = identitySlot type' key' ↔ type = type' ∧ key = key' := by
  refine ⟨fun h => ?_, fun ⟨ht, hk⟩ => ht ▸ hk ▸ rfl⟩
  have htext := congrArg String.toList h
  simp only [identitySlot, String.toList_append, List.append_assoc] at htext
  change type.name.toList ++ ':' :: key.toList = type'.name.toList ++ ':' :: key'.toList at htext
  have hname : type.name.toList = type'.name.toList := by
    have htake := congrArg (List.takeWhile (· ≠ ':')) htext
    have hplain (type : IdentityRecordType) : ∀ c ∈ type.name.toList, decide (c ≠ ':') = true := by
      intro c hc
      rw [decide_eq_true_eq]
      rintro rfl
      exact type.not_mem_colon hc
    rwa [List.takeWhile_append_of_pos (hplain type), List.takeWhile_append_of_pos (hplain type'),
      List.takeWhile_cons_of_neg (by simp), List.takeWhile_cons_of_neg (by simp), List.append_nil,
      List.append_nil] at htake
  rw [hname] at htext
  refine ⟨?_, String.toList_injective (List.cons.inj (List.append_cancel_left htext)).2⟩
  revert hname
  cases type <;> cases type' <;> decide

/-- What a record is about: the digest of it is the record's key. -/
def IdentityRecord.subject : IdentityRecord → String
  | .library _ address | .link _ address _ => address
  | .pin _ cid => cid
  | .profile .. => "profile"

def subjectKey (E : Environment) (subject : String) : String := (E.sha256Hex (utf8ToBytes subject)).text

theorem identityRecordKey_eq (E : Environment) (record : IdentityRecord) :
    identityRecordKey E record = subjectKey E record.subject := by
  cases record <;> rfl

/-- What an identity library accepts: a PUT under its record's key, a DEL, or a record this version does not know. -/
theorem validateIdentityOperation_cases {E : Environment} {payload : Value} {operation : Operation}
    (h : validateIdentityOperation E payload = .ok operation) :
    (∃ record, operation = .identityPut (subjectKey E record.subject) record) ∨
      (∃ key type timestamp, operation = .identityDel key type timestamp) ∨
      ∃ op key value, operation = .unknown op key value none := by
  unfold validateIdentityOperation at h
  split at h
  case h_1 => simp at h
  case h_2 fields _ =>
    simp only [bind_eq_ok] at h
    obtain ⟨-, -, h⟩ := h
    split at h
    case h_1 => simp at h
    case h_2 key _ =>
      split at h
      case h_1 => simp at h
      case h_2 value _ =>
        split at h
        case h_1 => simp at h
        case h_2 typeName _ =>
          split at h
          case isTrue =>
            split at h
            case h_1 => exact Or.inr (Or.inr ⟨_, _, _, (Except.ok.inj h).symm⟩)
            case h_2 type _ =>
              split at h
              case isTrue => exact Or.inr (Or.inr ⟨_, _, _, (Except.ok.inj h).symm⟩)
              case isFalse =>
                simp only [bind_eq_ok, require_eq_ok_iff, decide_eq_true_eq] at h
                obtain ⟨record, -, -, rfl, h⟩ := h
                rw [identityRecordKey_eq] at h
                exact Or.inl ⟨record, (Except.ok.inj h).symm⟩
          case isFalse =>
            split at h
            case isTrue =>
              simp only [bind_eq_ok] at h
              obtain ⟨-, -, h⟩ := h
              split at h
              case h_1 => simp at h
              case h_2 timestamp _ =>
                split at h
                case h_1 => exact Or.inr (Or.inr ⟨_, _, _, (Except.ok.inj h).symm⟩)
                case h_2 type _ =>
                  simp only [bind_eq_ok] at h
                  obtain ⟨-, -, h⟩ := h
                  exact Or.inr (Or.inl ⟨_, _, _, (Except.ok.inj h).symm⟩)
            case isFalse => simp at h

/-! ## The last of a list under current-state order -/

theorem compareCurrentState_pos_iff (a b : VerifiedEntry) :
    0 < compareCurrentState a.toHashedEntry b.toHashedEntry ↔ compareCurrentState b.toHashedEntry a.toHashedEntry < 0 := by
  rw [← not_le, compareCurrentState_follows.le_iff a b, compareCurrentState_follows.lt_iff b a, not_le]

theorem compareCurrentState_follows_back :
    Follows (fun a b : VerifiedEntry => compareCurrentState b.toHashedEntry a.toHashedEntry)
      (fun a => OrderDual.toDual (toLex (OrderDual.toDual (a.time : ℚ),
        toLex (OrderDual.toDual (envelopeTimestamp a.toHashedEntry), multihashKey a)))) :=
  ⟨fun a b => compareCurrentState_follows.lt_iff b a, fun a b => compareCurrentState_follows.le_iff b a⟩

theorem leastEntry_eq (entries : List VerifiedEntry) : leastEntry entries =
    firstLeast (fun a b => compareCurrentState b.toHashedEntry a.toHashedEntry) entries := by
  unfold leastEntry firstLeast
  congr 1
  funext least entry
  cases least with
  | none => rfl
  | some l => simp only [keepLeast, gt_iff_lt, compareCurrentState_pos_iff]

/-- Every other listed entry sorts before the least one. -/
theorem leastEntry_eq_some_iff {entries : List VerifiedEntry} (hl : HashInjective entries) (e : VerifiedEntry) :
    leastEntry entries = some e ↔
      e ∈ entries ∧ ∀ x ∈ entries, x = e ∨ compareCurrentState x.toHashedEntry e.toHashedEntry < 0 := by
  rw [leastEntry_eq]
  refine firstLeast_eq_some_iff compareCurrentState_follows_back (fun a ha b hb hab => hl a ha b hb ?_) e
  simp only [OrderDual.toDual_inj, toLex_inj, Prod.mk.injEq] at hab
  exact hash_eq_of_multihashKey_eq hab.2.2

theorem leastEntry_eq_none_iff {entries : List VerifiedEntry} : leastEntry entries = none ↔ entries = [] := by
  rw [leastEntry_eq]
  rcases firstLeast_spec compareCurrentState_follows_back entries with ⟨rfl, hn⟩ | ⟨m, hm, hs, -⟩
  · exact ⟨fun _ => rfl, fun _ => hn⟩
  · simp [hs, List.ne_nil_of_mem hm]

/-! ## The slots of an identity library -/

section Slots
variable {E : Environment} {chain : ResolvedAcChain} {o : Oplog}

theorem Sound.identity_cases (s : Sound E chain o) (htype : chain.type = .identity) {e : VerifiedEntry} (he : o.Holds e) :
    (∃ record, e.operation = .identityPut (subjectKey E record.subject) record) ∨
      (∃ key type timestamp, e.operation = .identityDel key type timestamp) ∨
      ∃ op key value, e.operation = .unknown op key value none := by
  obtain ⟨writeListSigner, h⟩ := s.validated he
  rw [htype] at h
  exact validateIdentityOperation_cases h

/-- What a held entry with a slot is: an identity operation, in the slot of its type and key. -/
theorem Sound.slot_of_held (s : Sound E chain o) (htype : chain.type = .identity) {e : VerifiedEntry} (he : o.Holds e)
    {k : String} (hk : k ∈ e.stateKeys E) :
    e.operation.isIdentityOperation = true ∧
      ∃ type key, recordType? e.operation = some type ∧ recordKey? e.operation = some key ∧
        k = identitySlot type key := by
  unfold VerifiedEntry.stateKeys at hk
  rcases s.identity_cases htype he with ⟨record, h⟩ | ⟨key, type, timestamp, h⟩ | ⟨op, key, value, h⟩
  · rw [h] at hk ⊢
    exact ⟨rfl, record.type, _, rfl, rfl, List.mem_singleton.mp hk⟩
  · rw [h] at hk ⊢
    exact ⟨rfl, type, key, rfl, rfl, List.mem_singleton.mp hk⟩
  · rw [h] at hk
    simp [stateKeysOf] at hk

theorem Sound.recordType_eq (s : Sound E chain o) (htype : chain.type = .identity) {e x : VerifiedEntry}
    (he : o.Holds e) (hx : o.Holds x) {k : String} (hk : k ∈ e.stateKeys E) (hkx : k ∈ x.stateKeys E) :
    recordType? e.operation = recordType? x.operation := by
  obtain ⟨-, type, key, ht, -, hkey⟩ := s.slot_of_held htype he hk
  obtain ⟨-, type', key', ht', -, hkey'⟩ := s.slot_of_held htype hx hkx
  rw [ht, ht', (identitySlot_inj.mp (hkey.symm.trans hkey')).1]

namespace IdentityLibraryState

variable {k : String} {hashes : OrderedSet Hash}

/-- The entries of a slot are the held entries it is a state key of. -/
theorem mem_entriesOf (s : Sound E chain o) (htype : chain.type = .identity) (hslot : o.keyEntries.get k = some hashes)
    (e : VerifiedEntry) : e ∈ entriesOf o hashes ↔ o.Holds e ∧ k ∈ e.stateKeys E := by
  have hmem (hash : Hash) : hash ∈ hashes ↔ ∃ x, o.entries.get hash = some x ∧ k ∈ x.stateKeys E := by
    rw [← s.indexed.keyEntries]
    simp [hslot]
  unfold entriesOf
  rw [List.mem_filterMap]
  constructor
  · rintro ⟨hash, hin, hget⟩
    obtain ⟨x, hx, hkx⟩ := (hmem hash).mp hin
    have hhash := s.indexed.grounded.keyed hash x hx
    subst hhash
    simp only [hx, Option.bind_some, Option.map_eq_some_iff] at hget
    obtain ⟨-, -, rfl⟩ := hget
    exact ⟨hx, hkx⟩
  · rintro ⟨he, hk⟩
    refine ⟨e.hash, (hmem e.hash).mpr ⟨e, he, hk⟩, ?_⟩
    have hget : o.entries.get e.hash = some e := he
    simp [hget, operationOf, (s.slot_of_held htype he hk).1]

theorem entriesOf_hashInjective (s : Sound E chain o) (htype : chain.type = .identity)
    (hslot : o.keyEntries.get k = some hashes) : HashInjective (entriesOf o hashes) := by
  intro a ha b hb hab
  have ha' : o.entries.get a.hash = some a := ((mem_entriesOf s htype hslot a).mp ha).1
  have hb' : o.entries.get b.hash = some b := ((mem_entriesOf s htype hslot b).mp hb).1
  rw [hab] at ha'
  exact Option.some_inj.mp (ha'.symm.trans hb')

/-- A slot with an entry has that entry's type. -/
theorem slotType_eq (s : Sound E chain o) (htype : chain.type = .identity) (hslot : o.keyEntries.get k = some hashes)
    {e : VerifiedEntry} (he : o.Holds e) (hk : k ∈ e.stateKeys E) : slotType o (k, hashes) = recordType? e.operation := by
  have hmem : e ∈ entriesOf o hashes := (mem_entriesOf s htype hslot e).mpr ⟨he, hk⟩
  obtain ⟨first, rest, hlist⟩ := List.exists_cons_of_ne_nil (List.ne_nil_of_mem hmem)
  obtain ⟨hfirst, hkfirst⟩ := (mem_entriesOf s htype hslot first).mp (hlist ▸ List.mem_cons_self)
  unfold slotType
  rw [hlist]
  exact s.recordType_eq htype hfirst he hkfirst hk

/-- The winner of a slot is a PUT of this record. -/
def WinningPut (E : Environment) (o : Oplog) (k : String) (record : IdentityRecord) : Prop :=
  ∃ e, IsWinner E o k e ∧ e.operation = .identityPut (subjectKey E record.subject) record

theorem WinningPut.slot_eq {record : IdentityRecord} (h : WinningPut E o k record) :
    k = identitySlot record.type (subjectKey E record.subject) := by
  obtain ⟨e, ⟨⟨-, hk, -⟩, -⟩, hop⟩ := h
  unfold VerifiedEntry.stateKeys at hk
  rw [hop] at hk
  exact List.mem_singleton.mp hk

theorem WinningPut.unique {record record' : IdentityRecord} (s : Sound E chain o) (h : WinningPut E o k record)
    (h' : WinningPut E o k record') : record = record' := by
  obtain ⟨e, he, hop⟩ := h
  obtain ⟨e', he', hop'⟩ := h'
  obtain rfl := Option.some_inj.mp (((s.current_some k e).mpr he).symm.trans ((s.current_some k e').mpr he'))
  exact (Operation.identityPut.inj (hop.symm.trans hop')).2

theorem WinningPut.slot {record : IdentityRecord} (s : Sound E chain o) (h : WinningPut E o k record) :
    ∃ hashes, (k, hashes) ∈ o.keyEntries.items := by
  obtain ⟨e, ⟨⟨he, hk, -⟩, -⟩, -⟩ := h
  obtain ⟨hashes, hslot, -⟩ := (s.indexed.keyEntries k e.hash).mpr ⟨e, he, hk⟩
  exact ⟨hashes, (OrderedMap.get_eq_some_iff _ _ _).mp hslot⟩

theorem currentRecord_eq_some_iff (s : Sound E chain o) (htype : chain.type = .identity)
    (hslot : o.keyEntries.get k = some hashes) (record : IdentityRecord) :
    currentRecord o (k, hashes) = some record ↔ WinningPut E o k record := by
  unfold currentRecord
  constructor
  · intro h
    split at h
    case h_2 => cases h
    case h_1 key value hcurrent =>
      split at h
      case isFalse => cases h
      case isTrue =>
        obtain rfl := Option.some_inj.mp h
        obtain ⟨e, he, hop⟩ := Option.bind_eq_some_iff.mp hcurrent
        have hwin := (s.current_some k e).mp he
        have hput : e.operation = .identityPut key value := by
          unfold operationOf at hop
          split at hop
          · exact Option.some_inj.mp hop
          · cases hop
        rcases s.identity_cases htype hwin.1.1 with ⟨record, hr⟩ | ⟨_, _, _, hr⟩ | ⟨_, _, _, hr⟩
        · obtain ⟨rfl, rfl⟩ := Operation.identityPut.inj (hput.symm.trans hr)
          exact ⟨e, hwin, hr⟩
        · simp [hput] at hr
        · simp [hput] at hr
  · rintro ⟨e, hwin, hop⟩
    have hcurrent : (o.current.get k).bind operationOf = some (.identityPut (subjectKey E record.subject) record) := by
      rw [(s.current_some k e).mpr hwin, Option.bind_some, operationOf, hop]
      rfl
    have htypeOf : slotType o (k, hashes) = some record.type := by
      rw [slotType_eq s htype hslot hwin.1.1 hwin.1.2.1, hop]
      rfl
    simp only [hcurrent, htypeOf, if_true]

/-! ## Library claims -/

/-- The held PUT of a library that every other one sorts before. -/
def FirstPut (E : Environment) (o : Oplog) (address : String) (e : VerifiedEntry) : Prop :=
  o.Holds e ∧ (∃ timestamp, e.operation = .identityPut (subjectKey E address) (.library timestamp address)) ∧
    ∀ x timestamp, o.Holds x → x.operation = .identityPut (subjectKey E address) (.library timestamp address) →
      x = e ∨ compareCurrentState x.toHashedEntry e.toHashedEntry < 0

/-- A DEL of the library is held. -/
def Retired (E : Environment) (o : Oplog) (address : String) : Prop :=
  ∃ e timestamp, o.Holds e ∧ e.operation = .identityDel (subjectKey E address) .library timestamp

/-- No two things that held records are about have the same digest. -/
def CollisionFree (E : Environment) (o : Oplog) : Prop :=
  Set.InjOn (subjectKey E)
    {subject | ∃ e key record, o.Holds e ∧ e.operation = .identityPut key record ∧ record.subject = subject}

theorem FirstPut.mem_stateKeys {address : String} {e : VerifiedEntry} (h : FirstPut E o address e) :
    identitySlot .library (subjectKey E address) ∈ e.stateKeys E := by
  obtain ⟨-, ⟨timestamp, hop⟩, -⟩ := h
  unfold VerifiedEntry.stateKeys
  rw [hop]
  exact List.mem_singleton_self _

/-- The PUTs of a slot. -/
theorem put_of_slot (s : Sound E chain o) (htype : chain.type = .identity) {e : VerifiedEntry} (he : o.Holds e)
    (hk : k ∈ e.stateKeys E) (hput : e.operation.op? = some .put) :
    ∃ record, e.operation = .identityPut (subjectKey E record.subject) record ∧
      k = identitySlot record.type (subjectKey E record.subject) := by
  unfold VerifiedEntry.stateKeys at hk
  rcases s.identity_cases htype he with ⟨record, h⟩ | ⟨key, type, timestamp, h⟩ | ⟨op, key, value, h⟩
  · rw [h] at hk
    exact ⟨record, h, List.mem_singleton.mp hk⟩
  · rw [h] at hput
    simp [Operation.op?] at hput
  · rw [h] at hk
    simp [stateKeysOf] at hk

/-- The DELs of a slot of library records. -/
theorem any_del_iff (s : Sound E chain o) (htype : chain.type = .identity) {address : String}
    (hslot : o.keyEntries.get (identitySlot .library (subjectKey E address)) = some hashes) :
    (entriesOf o hashes).any (fun e => e.operation.op? = some .del) = true ↔ Retired E o address := by
  rw [List.any_eq_true]
  constructor
  · rintro ⟨e, hmem, hdel⟩
    obtain ⟨he, hk⟩ := (mem_entriesOf s htype hslot e).mp hmem
    rw [decide_eq_true_eq] at hdel
    unfold VerifiedEntry.stateKeys at hk
    rcases s.identity_cases htype he with ⟨record, h⟩ | ⟨key, type, timestamp, h⟩ | ⟨op, key, value, h⟩
    · rw [h] at hdel
      simp [Operation.op?] at hdel
    · rw [h] at hk
      obtain ⟨rfl, rfl⟩ := identitySlot_inj.mp (List.mem_singleton.mp hk)
      exact ⟨e, timestamp, he, h⟩
    · rw [h] at hk
      simp [stateKeysOf] at hk
  · rintro ⟨e, timestamp, he, hop⟩
    refine ⟨e, (mem_entriesOf s htype hslot e).mpr ⟨he, ?_⟩, by simp [hop, Operation.op?]⟩
    unfold VerifiedEntry.stateKeys
    rw [hop]
    exact List.mem_singleton_self _

theorem writtenClaim_spec (s : Sound E chain o) (htype : chain.type = .identity) (hslot : o.keyEntries.get k = some hashes)
    {address : String} {claim : LibraryClaim} (h : writtenClaim o (k, hashes) = some (address, claim)) :
    k = identitySlot .library (subjectKey E address) ∧ FirstPut E o address claim.firstPut ∧
      (claim.retired = true ↔ Retired E o address) := by
  unfold writtenClaim at h
  split at h
  case isFalse => cases h
  case isTrue =>
    unfold claimOf at h
    have hinj : HashInjective ((entriesOf o hashes).filter fun e => e.operation.op? = some .put) := fun a ha b hb =>
      entriesOf_hashInjective s htype hslot a (List.mem_of_mem_filter ha) b (List.mem_of_mem_filter hb)
    split at h
    case h_1 => cases h
    case h_2 first hleast =>
      obtain ⟨hmem, hall⟩ := (leastEntry_eq_some_iff hinj first).mp hleast
      obtain ⟨hin, hput⟩ := List.mem_filter.mp hmem
      obtain ⟨he, hk⟩ := (mem_entriesOf s htype hslot first).mp hin
      obtain ⟨record, hop, rfl⟩ := put_of_slot s htype he hk (of_decide_eq_true hput)
      rw [hop] at h
      split at h
      case h_2 => cases h
      case h_1 key timestamp address' heq =>
        obtain ⟨rfl, rfl⟩ := Operation.identityPut.inj heq
        obtain ⟨rfl, rfl⟩ := Prod.mk.inj (Option.some_inj.mp h)
        refine ⟨rfl, ⟨he, ⟨timestamp, hop⟩, fun x ts hx hxop => ?_⟩, any_del_iff s htype hslot⟩
        refine hall x (List.mem_filter.mpr ⟨(mem_entriesOf s htype hslot x).mpr ⟨hx, ?_⟩, by simp [hxop, Operation.op?]⟩)
        unfold VerifiedEntry.stateKeys
        rw [hxop]
        exact List.mem_singleton_self _

/-- Without collisions a PUT in the slot of a recorded library is a PUT of that library. -/
theorem library_of_slot (s : Sound E chain o) (htype : chain.type = .identity) (hfree : CollisionFree E o)
    {address : String} {e x : VerifiedEntry} {timestamp : ℕ} (he : o.Holds e)
    (hop : e.operation = .identityPut (subjectKey E address) (.library timestamp address)) (hx : o.Holds x)
    (hk : identitySlot .library (subjectKey E address) ∈ x.stateKeys E) (hput : x.operation.op? = some .put) :
    ∃ timestamp, x.operation = .identityPut (subjectKey E address) (.library timestamp address) := by
  obtain ⟨record, hxop, hxslot⟩ := put_of_slot s htype hx hk hput
  obtain ⟨htypeEq, hkeyEq⟩ := identitySlot_inj.mp hxslot
  have hsubject : address = record.subject :=
    hfree ⟨_, _, _, he, hop, rfl⟩ ⟨x, _, record, hx, hxop, rfl⟩ hkeyEq
  cases record with
  | library ts a =>
    obtain rfl : address = a := hsubject
    exact ⟨ts, hxop⟩
  | link | pin | profile => cases htypeEq

theorem writtenClaim_of_firstPut (s : Sound E chain o) (htype : chain.type = .identity) (hfree : CollisionFree E o)
    {address : String} (hslot : o.keyEntries.get (identitySlot .library (subjectKey E address)) = some hashes)
    {claim : LibraryClaim} (hfirst : FirstPut E o address claim.firstPut)
    (hretired : claim.retired = true ↔ Retired E o address) :
    writtenClaim o (identitySlot .library (subjectKey E address), hashes) = some (address, claim) := by
  have hk := hfirst.mem_stateKeys
  obtain ⟨he, ⟨timestamp, hop⟩, hall⟩ := hfirst
  have hinj : HashInjective ((entriesOf o hashes).filter fun e => e.operation.op? = some .put) := fun a ha b hb =>
    entriesOf_hashInjective s htype hslot a (List.mem_of_mem_filter ha) b (List.mem_of_mem_filter hb)
  have hslotType : slotType o (identitySlot .library (subjectKey E address), hashes) = some .library := by
    rw [slotType_eq s htype hslot he hk, hop]
    rfl
  have hleast : leastEntry ((entriesOf o hashes).filter fun e => e.operation.op? = some .put) = some claim.firstPut := by
    refine (leastEntry_eq_some_iff hinj _).mpr ⟨List.mem_filter.mpr ⟨(mem_entriesOf s htype hslot _).mpr ⟨he, hk⟩, ?_⟩,
      fun x hx => ?_⟩
    · simp [hop, Operation.op?]
    · obtain ⟨hin, hput⟩ := List.mem_filter.mp hx
      obtain ⟨hxe, hxk⟩ := (mem_entriesOf s htype hslot x).mp hin
      obtain ⟨ts, hxop⟩ := library_of_slot s htype hfree he hop hxe hxk (of_decide_eq_true hput)
      exact hall x ts hxe hxop
  have hany := any_del_iff s htype hslot
  simp only [writtenClaim, hslotType, if_true, claimOf, hleast, hop]
  obtain ⟨retired, firstPut⟩ := claim
  have hflag : (entriesOf o hashes).any (fun e => e.operation.op? = some .del) = retired := by
    rw [Bool.eq_iff_iff, hany]
    exact hretired.symm
  rw [hflag]

/-! ## The state as a whole -/

/-- What the held entries say the state is. -/
structure Reflects (E : Environment) (o : Oplog) (state : IdentityLibraryState) : Prop where
  libraries : ∀ address claim, state.libraries.get address = some claim ↔
    FirstPut E o address claim.firstPut ∧ (claim.retired = true ↔ Retired E o address)
  links : ∀ address linkAlias, state.links.get address = some linkAlias ↔
    ∃ timestamp, WinningPut E o (identitySlot .link (subjectKey E address)) (.link timestamp address linkAlias)
  pins : ∀ cid, cid ∈ state.pins ↔
    ∃ timestamp, WinningPut E o (identitySlot .pin (subjectKey E cid)) (.pin timestamp cid)
  profile : ∀ record, state.profile = some record ↔
    record.type = .profile ∧ WinningPut E o (identitySlot .profile E.profileKey.text) record

theorem writtenLink_eq_some_iff (s : Sound E chain o) (htype : chain.type = .identity)
    (hslot : o.keyEntries.get k = some hashes) (address : String) (linkAlias : Option String) :
    writtenLink o (k, hashes) = some (address, linkAlias) ↔
      ∃ timestamp, WinningPut E o k (.link timestamp address linkAlias) := by
  simp only [← currentRecord_eq_some_iff s htype hslot]
  unfold writtenLink
  cases currentRecord o (k, hashes) with
  | none => simp
  | some record => cases record <;> simp

theorem writtenPin_eq_some_iff (s : Sound E chain o) (htype : chain.type = .identity)
    (hslot : o.keyEntries.get k = some hashes) (cid : String) :
    writtenPin o (k, hashes) = some cid ↔ ∃ timestamp, WinningPut E o k (.pin timestamp cid) := by
  simp only [← currentRecord_eq_some_iff s htype hslot]
  unfold writtenPin
  cases currentRecord o (k, hashes) with
  | none => simp
  | some record => cases record <;> simp

theorem writtenProfile_eq_some_iff (s : Sound E chain o) (htype : chain.type = .identity)
    (hslot : o.keyEntries.get k = some hashes) (record : IdentityRecord) :
    writtenProfile o (k, hashes) = some record ↔ record.type = .profile ∧ WinningPut E o k record := by
  rw [← currentRecord_eq_some_iff s htype hslot, writtenProfile, Option.filter_eq_some_iff, and_comm, decide_eq_true_eq]

theorem mem_keyEntries {k : String} {hashes : OrderedSet Hash} :
    (k, hashes) ∈ o.keyEntries.items ↔ o.keyEntries.get k = some hashes :=
  (OrderedMap.get_eq_some_iff _ _ _).symm

theorem identityLibraryState_eq (o : Oplog) : identityLibraryState o =
    ⟨.setEach (writtenClaim o) .empty o.keyEntries.items, .setEach (writtenLink o) .empty o.keyEntries.items,
      .ofList (o.keyEntries.items.filterMap (writtenPin o)),
      o.keyEntries.items.foldl (fun last slot => (writtenProfile o slot).or last) none⟩ :=
  foldl_addSlot o.keyEntries.items .empty

theorem libraries_get (s : Sound E chain o) (htype : chain.type = .identity) (hfree : CollisionFree E o)
    (address : String) (claim : LibraryClaim) : (identityLibraryState o).libraries.get address = some claim ↔
      FirstPut E o address claim.firstPut ∧ (claim.retired = true ↔ Retired E o address) := by
  rw [identityLibraryState_eq, OrderedMap.get_setEach_empty]
  · constructor
    · rintro ⟨⟨k, hashes⟩, hmem, hwritten⟩
      exact (writtenClaim_spec s htype (mem_keyEntries.mp hmem) hwritten).2
    · rintro ⟨hfirst, hretired⟩
      obtain ⟨hashes, hslot, -⟩ := (s.indexed.keyEntries _ _).mpr ⟨_, hfirst.1, hfirst.mem_stateKeys⟩
      exact ⟨_, mem_keyEntries.mpr hslot, writtenClaim_of_firstPut s htype hfree hslot hfirst hretired⟩
  · rintro ⟨k, hashes⟩ hi ⟨k', hashes'⟩ hj v w hv hw
    obtain ⟨rfl, -⟩ := writtenClaim_spec s htype (mem_keyEntries.mp hi) hv
    obtain ⟨rfl, -⟩ := writtenClaim_spec s htype (mem_keyEntries.mp hj) hw
    obtain rfl := Option.some_inj.mp ((mem_keyEntries.mp hi).symm.trans (mem_keyEntries.mp hj))
    exact (Prod.mk.inj (Option.some_inj.mp (hv.symm.trans hw))).2

theorem links_get (s : Sound E chain o) (htype : chain.type = .identity) (address : String) (linkAlias : Option String) :
    (identityLibraryState o).links.get address = some linkAlias ↔
      ∃ timestamp, WinningPut E o (identitySlot .link (subjectKey E address)) (.link timestamp address linkAlias) := by
  rw [identityLibraryState_eq, OrderedMap.get_setEach_empty]
  · constructor
    · rintro ⟨⟨k, hashes⟩, hmem, hwritten⟩
      obtain ⟨timestamp, hwin⟩ := (writtenLink_eq_some_iff s htype (mem_keyEntries.mp hmem) address linkAlias).mp hwritten
      obtain rfl := hwin.slot_eq
      exact ⟨timestamp, hwin⟩
    · rintro ⟨timestamp, hwin⟩
      obtain ⟨hashes, hmem⟩ := hwin.slot s
      exact ⟨_, hmem, (writtenLink_eq_some_iff s htype (mem_keyEntries.mp hmem) address linkAlias).mpr ⟨timestamp, hwin⟩⟩
  · rintro ⟨k, hashes⟩ hi ⟨k', hashes'⟩ hj v w hv hw
    obtain ⟨timestamp, hv⟩ := (writtenLink_eq_some_iff s htype (mem_keyEntries.mp hi) address v).mp hv
    obtain ⟨timestamp', hw⟩ := (writtenLink_eq_some_iff s htype (mem_keyEntries.mp hj) address w).mp hw
    obtain rfl := hv.slot_eq
    obtain rfl := hw.slot_eq
    exact (IdentityRecord.link.inj (hv.unique s hw)).2.2

theorem mem_pins (s : Sound E chain o) (htype : chain.type = .identity) (cid : String) :
    cid ∈ (identityLibraryState o).pins ↔
      ∃ timestamp, WinningPut E o (identitySlot .pin (subjectKey E cid)) (.pin timestamp cid) := by
  rw [identityLibraryState_eq, OrderedSet.mem_ofList, List.mem_filterMap]
  constructor
  · rintro ⟨⟨k, hashes⟩, hmem, hwritten⟩
    obtain ⟨timestamp, hwin⟩ := (writtenPin_eq_some_iff s htype (mem_keyEntries.mp hmem) cid).mp hwritten
    obtain rfl := hwin.slot_eq
    exact ⟨timestamp, hwin⟩
  · rintro ⟨timestamp, hwin⟩
    obtain ⟨hashes, hmem⟩ := hwin.slot s
    exact ⟨_, hmem, (writtenPin_eq_some_iff s htype (mem_keyEntries.mp hmem) cid).mpr ⟨timestamp, hwin⟩⟩

theorem WinningPut.profile_slot {record : IdentityRecord} (h : WinningPut E o k record) (hp : record.type = .profile) :
    k = identitySlot .profile E.profileKey.text := by
  cases record with
  | profile => exact h.slot_eq
  | library | link | pin => cases hp

theorem profile_eq (s : Sound E chain o) (htype : chain.type = .identity) (record : IdentityRecord) :
    (identityLibraryState o).profile = some record ↔
      record.type = .profile ∧ WinningPut E o (identitySlot .profile E.profileKey.text) record := by
  rw [identityLibraryState_eq, OrderedMap.foldl_or_eq_some_iff]
  · simp only [reduceCtorEq, false_and, or_false]
    constructor
    · rintro ⟨⟨k, hashes⟩, hmem, hwritten⟩
      obtain ⟨hp, hwin⟩ := (writtenProfile_eq_some_iff s htype (mem_keyEntries.mp hmem) record).mp hwritten
      obtain rfl := hwin.profile_slot hp
      exact ⟨hp, hwin⟩
    · rintro ⟨hp, hwin⟩
      obtain ⟨hashes, hmem⟩ := hwin.slot s
      exact ⟨_, hmem, (writtenProfile_eq_some_iff s htype (mem_keyEntries.mp hmem) record).mpr ⟨hp, hwin⟩⟩
  · rintro ⟨k, hashes⟩ hi ⟨k', hashes'⟩ hj v w hv hw
    obtain ⟨hpv, hv⟩ := (writtenProfile_eq_some_iff s htype (mem_keyEntries.mp hi) v).mp hv
    obtain ⟨hpw, hw⟩ := (writtenProfile_eq_some_iff s htype (mem_keyEntries.mp hj) w).mp hw
    obtain rfl := hv.profile_slot hpv
    obtain rfl := hw.profile_slot hpw
    exact hv.unique s hw

theorem identityLibraryState_reflects (s : Sound E chain o) (htype : chain.type = .identity) (hfree : CollisionFree E o) :
    Reflects E o (identityLibraryState o) :=
  ⟨libraries_get s htype hfree, links_get s htype, mem_pins s htype, profile_eq s htype⟩

/-- Two states with the same libraries, links, pins and profile. -/
structure Same (a b : IdentityLibraryState) : Prop where
  libraries : ∀ address, a.libraries.get address = b.libraries.get address
  links : ∀ address, a.links.get address = b.links.get address
  pins : ∀ cid, cid ∈ a.pins ↔ cid ∈ b.pins
  profile : a.profile = b.profile

/-- Every recorded library stays recorded, and a retired one stays retired. -/
def Grows (a b : IdentityLibraryState) : Prop :=
  ∀ address claim, a.libraries.get address = some claim →
    ∃ later, b.libraries.get address = some later ∧ (claim.retired = true → later.retired = true)

/-- A recorded library has a first PUT. -/
theorem exists_firstPut (s : Sound E chain o) (htype : chain.type = .identity) (hfree : CollisionFree E o)
    {address : String} {e : VerifiedEntry} {timestamp : ℕ} (he : o.Holds e)
    (hop : e.operation = .identityPut (subjectKey E address) (.library timestamp address)) :
    ∃ first, FirstPut E o address first := by
  have hk {x : VerifiedEntry} {ts : ℕ} (hx : x.operation = .identityPut (subjectKey E address) (.library ts address)) :
      identitySlot .library (subjectKey E address) ∈ x.stateKeys E := by
    unfold VerifiedEntry.stateKeys
    rw [hx]
    exact List.mem_singleton_self _
  obtain ⟨hashes, hslot, -⟩ := (s.indexed.keyEntries _ _).mpr ⟨e, he, hk hop⟩
  have hput {x : VerifiedEntry} : x ∈ (entriesOf o hashes).filter (fun e => e.operation.op? = some .put) ↔
      o.Holds x ∧ ∃ ts, x.operation = .identityPut (subjectKey E address) (.library ts address) := by
    rw [List.mem_filter, mem_entriesOf s htype hslot, decide_eq_true_eq]
    constructor
    · rintro ⟨⟨hx, hkx⟩, hputx⟩
      exact ⟨hx, library_of_slot s htype hfree he hop hx hkx hputx⟩
    · rintro ⟨hx, ts, hxop⟩
      exact ⟨⟨hx, hk hxop⟩, by simp [hxop, Operation.op?]⟩
  have hinj : HashInjective ((entriesOf o hashes).filter fun e => e.operation.op? = some .put) := fun a ha b hb =>
    entriesOf_hashInjective s htype hslot a (List.mem_of_mem_filter ha) b (List.mem_of_mem_filter hb)
  cases hleast : leastEntry ((entriesOf o hashes).filter fun e => e.operation.op? = some .put) with
  | none =>
    have hempty := leastEntry_eq_none_iff.mp hleast
    have hmem := hput.mpr ⟨he, timestamp, hop⟩
    rw [hempty] at hmem
    cases hmem
  | some first =>
    obtain ⟨hmem, hall⟩ := (leastEntry_eq_some_iff hinj first).mp hleast
    obtain ⟨hfirst, ts, hfop⟩ := hput.mp hmem
    exact ⟨first, hfirst, ⟨ts, hfop⟩, fun x ts hx hxop => hall x (hput.mpr ⟨hx, ts, hxop⟩)⟩

theorem grows_of_extends {p : Oplog} (s : Sound E chain o) (t : Sound E chain p) (htype : chain.type = .identity)
    (hext : Extends o p) (hfree : CollisionFree E p) : Grows (identityLibraryState o) (identityLibraryState p) := by
  have hfree' : CollisionFree E o := by
    refine hfree.mono ?_
    rintro subject ⟨e, key, record, he, hop, rfl⟩
    exact ⟨e, key, record, hext _ e he, hop, rfl⟩
  intro address claim hclaim
  obtain ⟨⟨he, ⟨timestamp, hop⟩, -⟩, hretired⟩ := (libraries_get s htype hfree' address claim).mp hclaim
  obtain ⟨first, hfirst⟩ := exists_firstPut t htype hfree (hext _ _ he) hop
  classical
  refine ⟨⟨decide (Retired E p address), first⟩, (libraries_get t htype hfree address _).mpr ⟨hfirst, by simp⟩, fun h => ?_⟩
  obtain ⟨d, ts, hd, hdop⟩ := hretired.mp h
  exact decide_eq_true ⟨d, ts, hext _ d hd, hdop⟩

theorem same_of_entries {p : Oplog} (s : Sound E chain o) (t : Sound E chain p) (htype : chain.type = .identity)
    (hfree : CollisionFree E o) (hget : ∀ h, o.entries.get h = p.entries.get h) :
    Same (identityLibraryState o) (identityLibraryState p) := by
  have hholds (e : VerifiedEntry) : o.Holds e ↔ p.Holds e := by rw [Oplog.Holds, Oplog.Holds, hget]
  have hfree' : CollisionFree E p := by simpa only [CollisionFree, hholds] using hfree
  have hcurrent := (s.sameDerived t hget).current
  have hwin (k : String) (record : IdentityRecord) : WinningPut E o k record ↔ WinningPut E p k record := by
    simp only [WinningPut, ← s.current_some, ← t.current_some, hcurrent]
  refine ⟨fun address => Option.ext fun claim => ?_, fun address => Option.ext fun linkAlias => ?_, fun cid => ?_,
    Option.ext fun record => ?_⟩
  · rw [libraries_get s htype hfree, libraries_get t htype hfree']
    simp only [FirstPut, Retired, hholds]
  · rw [links_get s htype, links_get t htype]
    simp only [hwin]
  · rw [mem_pins s htype, mem_pins t htype]
    simp only [hwin]
  · rw [profile_eq s htype, profile_eq t htype]
    simp only [hwin]

/-- Operations of different types or keys have no slot in common, nor have PUTs about different things. -/
def SeparateSlots (E : Environment) (o : Oplog) : Prop :=
  ∀ a b k, o.Holds a → o.Holds b → k ∈ a.stateKeys E → k ∈ b.stateKeys E →
    recordType? a.operation = recordType? b.operation ∧ recordKey? a.operation = recordKey? b.operation ∧
      ∀ key record key' record', a.operation = .identityPut key record → b.operation = .identityPut key' record' →
        record.subject = record'.subject

theorem separateSlots (s : Sound E chain o) (htype : chain.type = .identity) (hfree : CollisionFree E o) :
    SeparateSlots E o := by
  intro a b k ha hb hka hkb
  obtain ⟨-, type, key, hta, hkeya, hslota⟩ := s.slot_of_held htype ha hka
  obtain ⟨-, type', key', htb, hkeyb, hslotb⟩ := s.slot_of_held htype hb hkb
  obtain ⟨rfl, rfl⟩ := identitySlot_inj.mp (hslota.symm.trans hslotb)
  refine ⟨hta.trans htb.symm, hkeya.trans hkeyb.symm, fun ka record kb record' hopa hopb => ?_⟩
  have hput {e : VerifiedEntry} {record : IdentityRecord} {k' : String} (he : o.Holds e)
      (hop : e.operation = .identityPut k' record) : k' = subjectKey E record.subject := by
    rcases s.identity_cases htype he with ⟨r, h⟩ | ⟨_, _, _, h⟩ | ⟨_, _, _, h⟩
    · obtain ⟨rfl, rfl⟩ := Operation.identityPut.inj (hop.symm.trans h)
      rfl
    · simp [hop] at h
    · simp [hop] at h
  have hkeys : ka = kb := by
    rw [hopa] at hkeya
    rw [hopb] at hkeyb
    exact Option.some_inj.mp (hkeya.trans hkeyb.symm)
  refine hfree ⟨a, ka, record, ha, hopa, rfl⟩ ⟨b, kb, record', hb, hopb, rfl⟩ ?_
  rw [← hput ha hopa, ← hput hb hopb, hkeys]

end IdentityLibraryState

end Slots

namespace Sample

def identityChain : ResolvedAcChain := ⟨"/record/i", "i", .identity, [ownerKey], "mi", "wi", "li"⟩

/-- The library the owner claims and retires. -/
def claimedAddress : String := "/record/" ++ String.ofList (List.replicate 95 'a') ++ "/i"

def claimedKey : TrackId := plainEnvironment.sha256Hex (utf8ToBytes claimedAddress)

def claimFields : Fields :=
  [("v", .number 1), ("type", .string "library"), ("address", .string claimedAddress), ("timestamp", .number 1)]

def claimPayload : Value := .record [("op", .string "PUT"), ("key", .string claimedKey.text), ("value", .record claimFields)]

def retireFields : Fields := [("type", .string "library"), ("timestamp", .number 2)]

def retirePayload : Value := .record [("op", .string "DEL"), ("key", .string claimedKey.text), ("value", .record retireFields)]

theorem canonical_identityPayload {op key : String} {fields : Fields} (hf : (Value.record fields).Canonical) :
    (Value.record [("op", .string op), ("key", .string key), ("value", .record fields)]).Canonical := by
  refine .record _ (by simp; decide) ?_
  simp only [List.forall_mem_cons]
  exact ⟨.string _, .string _, hf, by simp⟩

theorem claimPayload_canonical : claimPayload.Canonical := by
  have h1 : IsDouble 1 := by exact_mod_cast isDouble_natCast (n := 1) (by decide)
  refine canonical_identityPayload (.record _ (by simp [claimFields]; decide) ?_)
  simp only [claimFields, List.forall_mem_cons]
  exact ⟨.number 1 h1, .string _, .string _, .number 1 h1, by simp⟩

theorem retirePayload_canonical : retirePayload.Canonical := by
  have h2 : IsDouble 2 := by exact_mod_cast isDouble_natCast (n := 2) (by decide)
  refine canonical_identityPayload (.record _ (by simp [retireFields]; decide) ?_)
  simp only [retireFields, List.forall_mem_cons]
  exact ⟨.string _, .number 2 h2, by simp⟩

theorem claimedAddress_valid : isLibraryAddress plainEnvironment claimedAddress = true := by decide +kernel

theorem validate_claimPayload : validateOperation plainEnvironment .identity true claimPayload =
    .ok (.identityPut claimedKey.text (.library 1 claimedAddress)) := by
  obtain ⟨key, hkey⟩ : ∃ key, key = claimedKey.text := ⟨_, rfl⟩
  have hrecord : validateIdentityRecord plainEnvironment .library claimFields = .ok (.library 1 claimedAddress) := by
    have h1 : claimFields.uint? "timestamp" = some 1 := by
      change (Value.number 1).asUint? = some 1
      decide
    have hv : claimFields.isInt "v" 1 = true := by simp [claimFields, Fields.isInt, Fields.get]
    have haddress : claimFields.string? "address" = some claimedAddress := rfl
    have hnames : claimFields.names = ["v", "type", "address", "timestamp"] := rfl
    simp [validateIdentityRecord, recordFields, require, h1, hv, haddress, hnames, claimedAddress_valid, bind, Except.bind]
    rfl
  have hrecordKey : identityRecordKey plainEnvironment (.library 1 claimedAddress) = key := hkey.symm
  have hlater : isLaterProfile claimFields = false := rfl
  have htype : claimFields.string? "type" = some "library" := rfl
  have hname : identityRecordType? "library" = some .library := rfl
  have hread : ∀ fields : Fields, fields = [("op", .string "PUT"), ("key", .string key), ("value", .record claimFields)] →
      fields.has "capability_id" = false ∧ fields.string? "key" = some key ∧ fields.string? "op" = some "PUT" ∧
        (fields.get "value").bind Value.fields? = some claimFields := by
    rintro _ rfl
    exact ⟨rfl, rfl, rfl, rfl⟩
  obtain ⟨hcap, hkeyField, hop, hvalue⟩ := hread _ rfl
  simp only [validateOperation, validateIdentityOperation, claimPayload, ← hkey, Value.fields?, hcap, hkeyField, hop, hvalue,
    htype, hname, hlater, hrecord]
  simp [require, hrecordKey, bind, Except.bind, pure, Except.pure]

theorem validate_retirePayload : validateOperation plainEnvironment .identity true retirePayload =
    .ok (.identityDel claimedKey.text .library 2) := by
  obtain ⟨key, hkey⟩ : ∃ key, key = claimedKey.text := ⟨_, rfl⟩
  have h2 : retireFields.uint? "timestamp" = some 2 := by
    change (Value.number 2).asUint? = some 2
    decide
  have hhas : retireFields.has "timestamp" = true := rfl
  have hlength : retireFields.length = 2 := rfl
  have htype : retireFields.string? "type" = some "library" := rfl
  have hname : identityRecordType? "library" = some .library := rfl
  have hread : ∀ fields : Fields, fields = [("op", .string "DEL"), ("key", .string key), ("value", .record retireFields)] →
      fields.has "capability_id" = false ∧ fields.string? "key" = some key ∧ fields.string? "op" = some "DEL" ∧
        (fields.get "value").bind Value.fields? = some retireFields := by
    rintro _ rfl
    exact ⟨rfl, rfl, rfl, rfl⟩
  obtain ⟨hcap, hkeyField, hop, hvalue⟩ := hread _ rfl
  simp only [validateOperation, validateIdentityOperation, retirePayload, ← hkey, Value.fields?, hcap, hkeyField, hop, hvalue,
    htype, hname, h2, hhas, hlength]
  simp [require, bind, Except.bind, pure, Except.pure]

/-- What the owner signs for an identity library with no parents. -/
def ownEntry (payload : Value) (operation : Operation) : VerifiedEntry := ⟨entryFor identityChain payload, operation⟩

theorem ownEntry_size {payload : Value} (h : (Plain.put payload).length ≤ 100000) (operation : Operation) :
    (ownEntry payload operation).bytes.length ≤ signedEntryMaxBytes := by
  have hl := literal_lengths
  simp only [List.map_cons, List.map_nil, List.cons.injEq, and_true] at hl
  have hmore : "/record/i".length = 9 := by decide
  simp [ownEntry, entryFor, rootEntry, hashSignedEntry, withHash, plainEnvironment, SignedEntry.toValue, signEntry, Plain.put,
    Plain.putFields, Plain.putItems, Plain.putString_length, Plain.publicKey_length, Plain.sign, bytesToHex_length,
    Digest.length_eq, Plain.putInt, Plain.putNat_length, hl, hmore, identityChain, signedEntryMaxBytes]
  omega

theorem claimedKey_length : claimedKey.text.length = 64 := by
  have := claimedKey.isHex
  rw [isHex64, Bool.and_eq_true, beq_iff_eq, String.length_toList] at this
  exact this.1

theorem claimPayload_size : (Plain.put claimPayload).length ≤ 100000 := by
  have hl := literal_lengths
  simp only [List.map_cons, List.map_nil, List.cons.injEq, and_true] at hl
  have hmore : ["PUT", "library", "address", claimedAddress].map String.length = [3, 7, 7, 105] := by decide +kernel
  simp only [List.map_cons, List.map_nil, List.cons.injEq, and_true] at hmore
  simp [claimPayload, claimFields, Plain.put, Plain.putFields, Plain.putString_length, Plain.putInt, Plain.putNat_length, hl,
    hmore, claimedKey_length]

theorem retirePayload_size : (Plain.put retirePayload).length ≤ 100000 := by
  have hl := literal_lengths
  simp only [List.map_cons, List.map_nil, List.cons.injEq, and_true] at hl
  have hmore : "library".length = 7 := by decide
  simp [retirePayload, retireFields, Plain.put, Plain.putFields, Plain.putString_length, Plain.putInt, Plain.putNat_length, hl,
    hmore, claimedKey_length]

theorem joins_own {o : Oplog} (ho : Reachable plainEnvironment identityChain o) {payload : Value} {operation : Operation}
    (hp : payload.Canonical) (hsize : (Plain.put payload).length ≤ 100000)
    (hop : validateOperation plainEnvironment .identity true payload = .ok operation)
    (hnew : ¬ o.Has (ownEntry payload operation).hash) : Joins plainEnvironment o (ownEntry payload operation) where
  decodes := decodeSignedEntry_rootEntry plainEnvironment_codecLaw hp (Plain.isCompressedPubkey_publicKey _) (ownEntry_size hsize operation)
  verifies := by
    have hchain := (reachable_sound ho).chain_eq
    refine verifyEntry_root ?_ ?_ rfl rfl
    · rw [hchain]
      exact checkEntry_rootEntry (Plain.isCompressedPubkey_publicKey _) (fun d => plainEnvironment_verify d owner.privateKey)
        (ownEntry_size hsize operation) (by simp [identityChain, ownerKey]) hop
    · rw [isWriteListKey, hchain]
      simp [identityChain, ownEntry, entryFor, rootEntry, hashSignedEntry, withHash, signEntry, ownerKey]
  new := hnew

def claim : VerifiedEntry := ownEntry claimPayload (.identityPut claimedKey.text (.library 1 claimedAddress))

def retirement : VerifiedEntry := ownEntry retirePayload (.identityDel claimedKey.text .library 2)

theorem claim_ne_retirement : claim.hash ≠ retirement.hash := by
  intro h
  have hd := congrArg Digest.bytes (formatProtocolCid_injective h)
  revert hd
  simp only [claim, retirement, ownEntry, entryFor, rootEntry, hashSignedEntry, withHash, plainEnvironment,
    SignedEntry.toValue, signEntry, signingDigest, unsignedFields, claimPayload, retirePayload, claimFields, retireFields,
    Plain.put, Plain.putFields, Plain.putItems, Plain.putString, Plain.publicKey, Plain.sign, String.toList_append,
    toList_bytesToHex, claimedKey, claimedAddress, Environment.sha256Hex, owner, identityChain, List.map_nil]
  decide +kernel

/-- The library claimed, then retired. -/
def claimed : Oplog := grow plainEnvironment (createOplog identityChain) claim

def retired : Oplog := grow plainEnvironment claimed retirement

/-- The replica that had the retirement first. -/
def retirementOnly : Oplog := grow plainEnvironment (createOplog identityChain) retirement

def retiredFirst : Oplog := grow plainEnvironment retirementOnly claim

theorem identity_not_has (h : Hash) : ¬ (createOplog identityChain).Has h := by
  simp [Oplog.Has, createOplog]

theorem joins_claim {o : Oplog} (ho : Reachable plainEnvironment identityChain o) (hnew : ¬ o.Has claim.hash) :
    Joins plainEnvironment o claim :=
  joins_own ho claimPayload_canonical claimPayload_size validate_claimPayload hnew

theorem joins_retirement {o : Oplog} (ho : Reachable plainEnvironment identityChain o) (hnew : ¬ o.Has retirement.hash) :
    Joins plainEnvironment o retirement :=
  joins_own ho retirePayload_canonical retirePayload_size validate_retirePayload hnew

theorem get_claimed (h : Hash) : claimed.entries.get h = if h = claim.hash then some claim else none :=
  (joins_claim .create (identity_not_has _)).get_grow h

theorem get_retirementOnly (h : Hash) : retirementOnly.entries.get h = if h = retirement.hash then some retirement else none :=
  (joins_retirement .create (identity_not_has _)).get_grow h

theorem claimed_reachable : Reachable plainEnvironment identityChain claimed := reachable_grow .create claim

theorem retirementOnly_reachable : Reachable plainEnvironment identityChain retirementOnly := reachable_grow .create retirement

theorem retired_reachable : Reachable plainEnvironment identityChain retired := reachable_grow claimed_reachable retirement

theorem retiredFirst_reachable : Reachable plainEnvironment identityChain retiredFirst :=
  reachable_grow retirementOnly_reachable claim

theorem get_retired (h : Hash) : retired.entries.get h =
    if h = retirement.hash then some retirement else if h = claim.hash then some claim else none := by
  have hnew : ¬ claimed.Has retirement.hash := by
    rintro ⟨e, he⟩
    rw [get_claimed, if_neg claim_ne_retirement.symm] at he
    cases he
  rw [retired, (joins_retirement claimed_reachable hnew).get_grow, get_claimed]

theorem get_retiredFirst (h : Hash) : retiredFirst.entries.get h =
    if h = claim.hash then some claim else if h = retirement.hash then some retirement else none := by
  have hnew : ¬ retirementOnly.Has claim.hash := by
    rintro ⟨e, he⟩
    rw [get_retirementOnly, if_neg claim_ne_retirement] at he
    cases he
  rw [retiredFirst, (joins_claim retirementOnly_reachable hnew).get_grow, get_retirementOnly]

/-- Both replicas hold the two entries. -/
theorem get_retired_eq (h : Hash) : retired.entries.get h = retiredFirst.entries.get h := by
  rw [get_retired, get_retiredFirst]
  by_cases hclaim : h = claim.hash
  · have hne : h ≠ retirement.hash := fun heq => claim_ne_retirement (hclaim.symm.trans heq)
    rw [if_pos hclaim, if_pos hclaim, if_neg hne]
  · rw [if_neg hclaim, if_neg hclaim]

theorem holds_claimed {e : VerifiedEntry} (h : claimed.Holds e) : e = claim := by
  rw [Oplog.Holds, get_claimed] at h
  split at h
  · exact (Option.some_inj.mp h).symm
  · cases h

theorem holds_retired {e : VerifiedEntry} (h : retired.Holds e) : e = retirement ∨ e = claim := by
  rw [Oplog.Holds, get_retired] at h
  split at h
  · exact .inl (Option.some_inj.mp h).symm
  · split at h
    · exact .inr (Option.some_inj.mp h).symm
    · cases h

/-- Only one record is a PUT, so there is nothing it could share a key with. -/
theorem collisionFree_of_claim {o : Oplog} (h : ∀ e, o.Holds e → e = retirement ∨ e = claim) :
    IdentityLibraryState.CollisionFree plainEnvironment o := by
  have hrecord {e : VerifiedEntry} {key : String} {record : IdentityRecord} (he : o.Holds e)
      (hop : e.operation = .identityPut key record) : record = .library 1 claimedAddress := by
    rcases h e he with rfl | rfl
    · cases hop
    · exact (Operation.identityPut.inj hop).2.symm
  rintro a ⟨e, key, record, he, hop, rfl⟩ b ⟨e', key', record', he', hop', rfl⟩ -
  rw [hrecord he hop, hrecord he' hop']

theorem firstPut_claim {o : Oplog} (h : ∀ e, o.Holds e → e = retirement ∨ e = claim) (hclaim : o.Holds claim) :
    IdentityLibraryState.FirstPut plainEnvironment o claimedAddress claim := by
  refine ⟨hclaim, ⟨1, rfl⟩, fun x timestamp hx hop => ?_⟩
  rcases h x hx with rfl | rfl
  · cases hop
  · exact .inl rfl

end Sample

end RecordNode
