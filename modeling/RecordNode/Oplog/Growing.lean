import RecordNode.Oplog.Authentic
import RecordNode.Oplog.Root

/-! # Growing an oplog entry by entry

Any key pair's entry on top of held parents: what it takes to be accepted, and what
the oplog is once its block is merged. Histories of a few entries are put together
this way. -/

namespace RecordNode

open Foundation

variable {E : Environment} {chain : ResolvedAcChain} {o : Oplog}

/-- The entry a key pair signs for the oplog's library with these parents. -/
def signedOn (E : Environment) (o : Oplog) (payload : Value) (next : List Hash) (keyPair : KeyPair) : HashedEntry :=
  hashSignedEntry E (signEntry E
    ⟨o.chain.address, payload, next, [], ⟨E.publicKey keyPair.privateKey, maxTime o next + 1⟩, "", ""⟩ keyPair)

theorem time_signedOn (payload : Value) (next : List Hash) (keyPair : KeyPair) (operation : Operation) :
    (⟨signedOn E o payload next keyPair, operation⟩ : VerifiedEntry).time = maxTime o next + 1 :=
  rfl

/-- What an entry needs to be well formed, whatever it says: a key and a signature that fit, parents
that are hashes, few enough, and a clock and a size within bounds. -/
structure WellSigned (E : Environment) (o : Oplog) (payload : Value) (next : List Hash) (keyPair : KeyPair) : Prop where
  key : isCompressedPubkey (E.publicKey keyPair.privateKey) = true
  signature : ∀ d, E.verifyDigest (E.signDigest d keyPair.privateKey) d (E.publicKey keyPair.privateKey) = true
  cids : ∀ p ∈ next, isProtocolCid p = true
  count : next.length ≤ maxEntryPointers
  clock : maxTime o next + 1 ≤ Value.maxSafeInteger
  size : (signedOn E o payload next keyPair).bytes.length ≤ signedEntryMaxBytes

section SignedOn
variable {payload : Value} {next : List Hash} {keyPair : KeyPair} {operation : Operation}

theorem assertPointers_of_cids {l : List Hash} (hc : ∀ p ∈ l, isProtocolCid p = true) (hl : l.length ≤ maxEntryPointers)
    (label : String) : assertPointers (some (.array (l.map .string))) label = .ok l := by
  have hall : l.all isProtocolCid = true := List.all_eq_true.mpr hc
  have hlength : ¬ (l.map Value.string).length > maxEntryPointers := by
    rw [List.length_map]
    exact Nat.not_lt.mpr hl
  simp only [assertPointers, Option.bind_some, Value.asArray?, if_neg hlength, mapM_asString_map, hall, if_true]

theorem WellSigned.shape (w : WellSigned E o payload next keyPair) :
    assertSignedEntryShape E (signedOn E o payload next keyPair).entry.toValue =
      .ok (signedOn E o payload next keyPair).entry :=
  assertSignedEntryShape_toValue_eq (assertPointers_of_cids w.cids w.count _) rfl w.key w.key w.clock

theorem WellSigned.decode (w : WellSigned E o payload next keyPair) (hE : E.CodecLaw) (hp : payload.Canonical) :
    decodeSignedEntry E (signedOn E o payload next keyPair).bytes = .ok (signedOn E o payload next keyPair) :=
  decodeSignedEntry_hashSignedEntry hE hp w.shape ((require_eq_ok_iff _).mpr (decide_eq_true w.size))

/-- A well-signed entry of a recordstore passes its own check when its payload does. -/
theorem WellSigned.check (w : WellSigned E o payload next keyPair) (hr : o.chain.type = .recordstore)
    (hop : validateOperation E o.chain.type (isWriteListKey o (E.publicKey keyPair.privateKey)) payload = .ok operation) :
    checkEntry E o.chain (signedOn E o payload next keyPair) = .ok operation := by
  simp only [checkEntry, bind_eq_ok]
  refine ⟨(), (require_eq_ok_iff _).mpr (decide_eq_true w.size), _, w.shape, operation, hop, (),
    (require_eq_ok_iff _).mpr (w.signature _), (), (require_eq_ok_iff _).mpr (by simp [hr]), rfl⟩

/-- It is accepted on top of held parents once it is authorised. -/
theorem WellSigned.verify (w : WellSigned E o payload next keyPair) (hr : o.chain.type = .recordstore)
    (hop : validateOperation E o.chain.type (isWriteListKey o (E.publicKey keyPair.privateKey)) payload = .ok operation)
    (hheld : ∀ p ∈ next, o.Has p) (hauth : authoriseEntry E o (signedOn E o payload next keyPair) operation = .ok ()) :
    verifyEntry E o (signedOn E o payload next keyPair) = .ok ⟨signedOn E o payload next keyPair, operation⟩ := by
  refine (verifyEntry_eq_ok_iff E o _ _).mpr ⟨rfl, w.check hr hop, ?_, hauth⟩
  exact (assertClock_eq_ok_iff o _).mpr ⟨hheld, rfl⟩

end SignedOn

/-! ## One more entry -/

/-- The oplog once the block of one more entry is merged. -/
def grow (E : Environment) (o : Oplog) (e : VerifiedEntry) : Oplog := (mergeEntries E o [e.bytes]).1

/-- The entry can be decoded, is accepted and is not held yet. -/
structure Joins (E : Environment) (o : Oplog) (e : VerifiedEntry) : Prop where
  decodes : decodeSignedEntry E e.bytes = .ok e.toHashedEntry
  verifies : verifyEntry E o e.toHashedEntry = .ok e
  new : ¬ o.Has e.hash

namespace Joins

variable {e : VerifiedEntry}

theorem grow_eq (g : Joins E o e) : grow E o e = (settle E (insertEntry E o e) [e]).1 :=
  (mergeEntries_new g.decodes g.verifies g.new).1

theorem get_grow (g : Joins E o e) (h : Hash) :
    (grow E o e).entries.get h = if h = e.hash then some e else o.entries.get h := by
  rw [g.grow_eq, (settle_base _ _).entries, insertEntry_get g.new]

theorem revocations_grow (g : Joins E o e) (hnot : e.operation.isRevocation = false) :
    (grow E o e).revocations = o.revocations := by
  have hf : ¬ o.entries.has e.hash = true := fun hh => g.new ((has_iff_entries_has o _).mpr hh)
  rw [g.grow_eq, (settle_base _ _).revocations, insertEntry, if_neg hf]
  simp [hnot]

end Joins

theorem cid_of_decodes {e : VerifiedEntry} (h : decodeSignedEntry E e.bytes = .ok e.toHashedEntry) :
    computeCidString E e.bytes = e.hash :=
  congrArg formatProtocolCid (decodeSignedEntry_bytes h).2.symm

/-- The digests of entries with different hashes do not collide. -/
theorem injOn_of_hashes {entries : List VerifiedEntry}
    (hd : ∀ e ∈ entries, decodeSignedEntry E e.bytes = .ok e.toHashedEntry) (hn : (entries.map (·.hash)).Nodup) :
    Set.InjOn E.sha3 {b | b ∈ entries.map (·.bytes)} := by
  intro b hb c hc h
  obtain ⟨x, hx, rfl⟩ := List.mem_map.mp hb
  obtain ⟨y, hy, rfl⟩ := List.mem_map.mp hc
  have hhash : x.hash = y.hash :=
    (cid_of_decodes (hd x hx)).symm.trans ((congrArg formatProtocolCid h).trans (cid_of_decodes (hd y hy)))
  rw [List.inj_on_of_nodup_map hn hx hy hhash]

theorem reachable_grow (ho : Reachable E chain o) (e : VerifiedEntry) : Reachable E chain (grow E o e) :=
  .merge _ _ ho

/-! ## Small histories

A digest that spells out an entry's clock and the first letter of its record's type
tells the entries of a small history apart, and can be read off without computing
any of the bytes in between. -/

namespace Sample

def timeOf (v : Value) : ℕ :=
  ((((v.fields?.bind (·.get "clock")).bind Value.fields?).bind (·.uint? "time"))).getD 0

def letterOf (payload : Value) : Char :=
  (((valueFields payload).bind (·.string? "type")).bind (·.toList.head?)).getD ' '

def mark (time : ℕ) (letter : Char) : Digest 64 :=
  ⟨UInt8.ofNat time :: UInt8.ofNat letter.toNat :: List.replicate 62 0, by simp⟩

/-- The plain environment with digests that spell out what they are of. -/
def clockEnvironment : Environment :=
  { plainEnvironment with
    sha3 := fun b =>
      match plainEnvironment.decode b with
      | some v => mark (timeOf v) (((v.fields?.bind (·.get "payload")).map letterOf).getD ' ')
      | none => mark 0 ' ' }

theorem clockEnvironment_codecLaw : clockEnvironment.CodecLaw := plainEnvironment_codecLaw

theorem mark_injective {t u : ℕ} {a b : Char} (ht : t < 256) (hu : u < 256) (ha : a.toNat < 256) (hb : b.toNat < 256)
    (h : formatProtocolCid (mark t a) = formatProtocolCid (mark u b)) : t = u ∧ a = b := by
  have hbytes := congrArg Digest.bytes (formatProtocolCid_injective h)
  simp only [mark, List.cons.injEq, and_true] at hbytes
  have htime := congrArg UInt8.toNat hbytes.1
  have hletter := congrArg UInt8.toNat hbytes.2
  simp only [UInt8.toNat_ofNat'] at htime hletter
  refine ⟨by omega, Char.toNat_inj.mp (by omega)⟩

theorem mark_ne {t u : ℕ} {a b : Char}
    (h : (t < 256 ∧ u < 256 ∧ a.toNat < 256 ∧ b.toNat < 256) ∧ (t ≠ u ∨ a ≠ b)) :
    formatProtocolCid (mark t a) ≠ formatProtocolCid (mark u b) := by
  obtain ⟨⟨ht, hu, ha, hb⟩, hne⟩ := h
  intro heq
  obtain ⟨htime, hletter⟩ := mark_injective ht hu ha hb heq
  exact hne.elim (fun h => h htime) fun h => h hletter

section Signed
variable {payload : Value} {next : List Hash} {keyPair : KeyPair}

theorem timeOf_toValue (e : SignedEntry) : timeOf e.toValue = ((Value.number e.clock.time).asUint?).getD 0 := rfl

theorem sha3_toValue (e : SignedEntry) (ht : e.clock.time ≤ Value.maxSafeInteger) :
    clockEnvironment.sha3 (clockEnvironment.encode e.toValue) = mark e.clock.time (letterOf e.payload) := by
  have hdecode (v : Value) : plainEnvironment.decode (plainEnvironment.encode v) = some v := by
    have h := Plain.get_put v (Plain.put v).length [] (Nat.le_refl _)
    rw [List.append_nil] at h
    simp [plainEnvironment, h]
  have hpayload : e.toValue.fields?.bind (·.get "payload") = some e.payload := rfl
  have hsha3 (v : Value) : clockEnvironment.sha3 (clockEnvironment.encode v) =
      mark (timeOf v) (((v.fields?.bind (·.get "payload")).map letterOf).getD ' ') := by
    change (match plainEnvironment.decode (plainEnvironment.encode v) with
      | some v => mark (timeOf v) (((v.fields?.bind (·.get "payload")).map letterOf).getD ' ')
      | none => mark 0 ' ') = _
    rw [hdecode]
  rw [hsha3, hpayload, timeOf_toValue, Value.asUint_natCast, if_pos ht, Option.getD_some, Option.map_some,
    Option.getD_some]

theorem hash_signedOn {t : ℕ} (ht : maxTime o next + 1 = t) (hmax : t ≤ Value.maxSafeInteger) :
    (signedOn clockEnvironment o payload next keyPair).hash = formatProtocolCid (mark t (letterOf payload)) := by
  subst ht
  exact congrArg formatProtocolCid (sha3_toValue (signedOn clockEnvironment o payload next keyPair).entry hmax)

theorem putItems_hashes_length (hl : ∀ p ∈ next, p.length ≤ 273) :
    (Plain.putItems (next.map .string)).length ≤ 1095 * next.length + 1 := by
  induction next with
  | nil => exact Nat.le_refl _
  | cons p next ih =>
    have hp := hl p List.mem_cons_self
    have ih := ih fun q hq => hl q (List.mem_cons_of_mem p hq)
    simp only [List.map_cons, Plain.putItems, Plain.put, List.length_cons, List.length_append, Plain.putString_length]
    omega

theorem wellSigned (hcids : ∀ p ∈ next, isProtocolCid p = true ∧ p.length ≤ 273) (hcount : next.length ≤ 8)
    (ht : maxTime o next ≤ 1000) (haddress : o.chain.address.length ≤ 100) (hpayload : (Plain.put payload).length ≤ 100000) :
    WellSigned clockEnvironment o payload next keyPair where
  key := Plain.isCompressedPubkey_publicKey _
  signature d := plainEnvironment_verify d keyPair.privateKey
  cids p hp := (hcids p hp).1
  count := hcount.trans (by decide)
  clock := by
    have : (1001 : ℕ) ≤ Value.maxSafeInteger := by decide
    omega
  size := by
    have hlen : ["v", "id", "key", "sig", "next", "refs", "clock", "time", "payload"].map String.length =
        [1, 2, 3, 3, 4, 4, 5, 4, 7] := by decide
    simp only [List.map_cons, List.map_nil, List.cons.injEq, and_true] at hlen
    have hnext := putItems_hashes_length fun p hp => (hcids p hp).2
    have hmax : signedEntryMaxBytes = 262144 := rfl
    have hnum : ((maxTime o next : ℚ) + 1).num.natAbs = maxTime o next + 1 := by
      rw [← Nat.cast_one, ← Nat.cast_add, Rat.num_natCast, Int.natAbs_natCast]
    simp [signedOn, hashSignedEntry, withHash, clockEnvironment, plainEnvironment, SignedEntry.toValue, signEntry,
      Plain.put, Plain.putFields, Plain.putItems, Plain.putString_length,
      Plain.publicKey_length, Plain.sign, bytesToHex_length, Digest.length_eq, Plain.putInt, Plain.putNat_length, hlen]
    rw [hnum]
    omega

end Signed

end Sample

end RecordNode
