import Mathlib.Algebra.Order.BigOperators.Group.List
import RecordNode.AccessControl.Inertness

/-! # Local entries

The entry a peer signs on top of its own heads. With more heads than an entry may
cite the choice goes by clock, and one head is swapped in when the cited capability
would otherwise fall out of the past. -/

namespace RecordNode

open Foundation Relation

variable {E : Environment} {chain : ResolvedAcChain} {o : Oplog}

/-! ## Heads cover the oplog -/

theorem exists_time_bound (o : Oplog) : ∃ bound, ∀ h e, o.entries.get h = some e → e.time ≤ bound := by
  refine ⟨(o.entries.values.map VerifiedEntry.time).sum, fun h e he => ?_⟩
  exact List.single_le_sum (by simp) _ (List.mem_map_of_mem ((o.entries.mem_values_iff e).mpr ⟨h, he⟩))

/-- Every held entry is a head or an ancestor of one. -/
theorem Indexed.crowned (I : Indexed E o) {h : Hash} (hh : o.Has h) :
    ∃ s ∈ o.heads, ReflTransGen o.Parent s h := by
  obtain ⟨bound, hbound⟩ := exists_time_bound o
  obtain ⟨e, he⟩ := hh
  -- Children have later clocks, so going up from child to child ends.
  obtain ⟨n, hn⟩ : ∃ n, n = bound - e.time := ⟨_, rfl⟩
  induction n using Nat.strong_induction_on generalizing h e with
  | _ n ih =>
    by_cases hhead : h ∈ o.heads
    · exact ⟨h, hhead, .refl⟩
    · obtain ⟨x, q, hq, hm⟩ : ∃ x q, o.entries.get x = some q ∧ h ∈ q.next := by
        by_contra hnone
        exact hhead ((I.heads h).mpr ⟨⟨e, he⟩, fun x q hq hm => hnone ⟨x, q, hq, hm⟩⟩)
      have hlt := I.grounded.older x q hq h hm e he
      have hle := hbound x q hq
      obtain ⟨s, hs, hr⟩ := ih (bound - q.time) (by omega) q hq rfl
      exact ⟨s, hs, hr.tail ⟨q, hq, hm⟩⟩

/-! ## The heads an entry cites -/

theorem codeUnits_injective : Function.Injective codeUnits := by
  intro a b h
  exact String.toList_inj.mp (List.map_injective_iff.mpr (fun _ _ => Char.toNat_inj.mp) h)

theorem follows_compareText : Follows compareText codeUnits where
  lt_iff a b := by
    unfold compareText
    split_ifs with hlt hgt
    · exact iff_of_true (by norm_num) hlt
    · exact iff_of_false (by norm_num) hlt
    · exact iff_of_false (by norm_num) hlt
  le_iff a b := by
    unfold compareText
    split_ifs with hlt hgt
    · exact iff_of_true (by norm_num) hlt.le
    · exact iff_of_false (by norm_num) (not_le.mpr hgt)
    · exact iff_of_true (by norm_num) (not_lt.mp hgt)

/-- The heads by clock, the greatest first. -/
def headsByClock (o : Oplog) : List Hash :=
  sortBy (fun a b => orElse ((clockOf o b : ℚ) - clockOf o a) (if codeUnits a < codeUnits b then -1 else 1))
    o.heads.items

/-- The cited capability is this head or in its past. -/
def reaches (o : Oplog) (capabilityId : Option String) (hash : Hash) : Bool :=
  match capabilityId with
  | none => true
  | some capability => hash = capability || inCausalPast o.entries capability [hash]

theorem selectNext_eq (o : Oplog) (capabilityId : Option String) : selectNext o capabilityId =
    sortBy compareText
      (if maxCitedHeads < (headsByClock o).length && !((headsByClock o).take maxCitedHeads).any (reaches o capabilityId)
      then
        match ((headsByClock o).drop maxCitedHeads).find? (reaches o capabilityId) with
        | some head => ((headsByClock o).take maxCitedHeads).dropLast ++ [head]
        | none => (headsByClock o).take maxCitedHeads
      else (headsByClock o).take maxCitedHeads) :=
  rfl

/-- What is cited is the choice by clock, or that choice with its last head swapped for one that
reaches the capability. -/
theorem selectNext_cases (o : Oplog) (capabilityId : Option String) :
    ((selectNext o capabilityId).Perm ((headsByClock o).take maxCitedHeads) ∧
        ((∃ h ∈ (headsByClock o).take maxCitedHeads, reaches o capabilityId h = true) ∨
          ∀ h ∈ headsByClock o, reaches o capabilityId h = false)) ∨
      ∃ head ∈ (headsByClock o).drop maxCitedHeads, reaches o capabilityId head = true ∧
        (selectNext o capabilityId).Perm (((headsByClock o).take maxCitedHeads).dropLast ++ [head]) := by
  rw [selectNext_eq]
  split_ifs with hswap
  · rw [Bool.and_eq_true, Bool.not_eq_true', List.any_eq_false] at hswap
    split
    case h_1 head hfind =>
      exact Or.inr ⟨head, List.mem_of_find?_eq_some hfind, List.find?_some hfind, sortBy_perm _ _⟩
    case h_2 hfind =>
      refine Or.inl ⟨sortBy_perm _ _, Or.inr fun h hh => ?_⟩
      rw [← List.take_append_drop maxCitedHeads (headsByClock o), List.mem_append] at hh
      rcases hh with hh | hh
      · exact Bool.eq_false_iff.mpr (hswap.2 h hh)
      · exact Bool.eq_false_iff.mpr (List.find?_eq_none.mp hfind h hh)
  · refine Or.inl ⟨sortBy_perm _ _, ?_⟩
    rw [Bool.and_eq_true, not_and_or, decide_eq_true_eq, Bool.not_eq_true', Bool.not_eq_false,
      List.any_eq_true] at hswap
    rcases hswap with hfew | hreach
    · rw [List.take_of_length_le (Nat.not_lt.mp hfew)]
      by_cases hsome : ∃ h ∈ headsByClock o, reaches o capabilityId h = true
      · exact Or.inl hsome
      · exact Or.inr fun h hh => Bool.eq_false_iff.mpr fun hr => hsome ⟨h, hh, hr⟩
    · exact Or.inl hreach

theorem mem_headsByClock (o : Oplog) (h : Hash) : h ∈ headsByClock o ↔ h ∈ o.heads := mem_sortBy _ _ h

theorem headsByClock_nodup (o : Oplog) : (headsByClock o).Nodup :=
  (sortBy_perm _ _).nodup_iff.mpr o.heads.nodup

section Cited
variable (o : Oplog) (capabilityId : Option String)

theorem selectNext_mem_heads {h : Hash} (hm : h ∈ selectNext o capabilityId) : h ∈ o.heads := by
  rw [← mem_headsByClock]
  obtain ⟨hp, -⟩ | ⟨head, hhead, -, hp⟩ := selectNext_cases o capabilityId
  · exact List.mem_of_mem_take (hp.mem_iff.mp hm)
  · rcases List.mem_append.mp (hp.mem_iff.mp hm) with hm | hm
    · exact List.mem_of_mem_take (List.mem_of_mem_dropLast hm)
    · exact List.mem_singleton.mp hm ▸ List.mem_of_mem_drop hhead

theorem selectNext_nodup : (selectNext o capabilityId).Nodup := by
  have htake := (headsByClock_nodup o).sublist (List.take_sublist maxCitedHeads (headsByClock o))
  obtain ⟨hp, -⟩ | ⟨head, hhead, -, hp⟩ := selectNext_cases o capabilityId
  · exact hp.nodup_iff.mpr htake
  · rw [hp.nodup_iff]
    refine (htake.sublist (List.dropLast_sublist _)).append (List.nodup_singleton head) ?_
    intro h hm hs
    rw [List.mem_singleton.mp hs] at hm
    exact List.disjoint_take_drop (headsByClock_nodup o) (Nat.le_refl _) (List.mem_of_mem_dropLast hm) hhead

theorem selectNext_length_le : (selectNext o capabilityId).length ≤ maxCitedHeads := by
  obtain ⟨hp, -⟩ | ⟨head, hhead, -, hp⟩ := selectNext_cases o capabilityId
  · rw [hp.length_eq]
    exact List.length_take_le _ _
  · have hmax : maxCitedHeads = 256 := rfl
    rw [hp.length_eq, List.length_append, List.length_dropLast, List.length_take, List.length_singleton]
    omega

/-- The cited heads stand in strict order of their texts. -/
theorem selectNext_sorted : (selectNext o capabilityId).Pairwise fun a b => codeUnits a < codeUnits b := by
  have hle : (selectNext o capabilityId).Pairwise fun a b => codeUnits a ≤ codeUnits b := by
    rw [selectNext_eq]
    exact sortBy_pairwise follows_compareText _
  refine hle.imp₂ (fun a b hab hne => lt_of_le_of_ne hab (codeUnits_injective.ne hne)) (selectNext_nodup o capabilityId)

theorem exists_mem_selectNext {head : Hash} (hhead : head ∈ o.heads) : ∃ p, p ∈ selectNext o capabilityId := by
  obtain ⟨hp, -⟩ | ⟨swapped, -, -, hp⟩ := selectNext_cases o capabilityId
  · obtain ⟨p, rest, hheads⟩ := List.exists_cons_of_ne_nil (List.ne_nil_of_mem ((mem_headsByClock o head).mpr hhead))
    rw [hheads] at hp
    exact ⟨p, hp.mem_iff.mpr List.mem_cons_self⟩
  · exact ⟨swapped, hp.mem_iff.mpr (by simp)⟩

/-- With no more heads than an entry may cite, it cites them all. -/
theorem mem_selectNext_iff (hfew : o.heads.items.length ≤ maxCitedHeads) (h : Hash) :
    h ∈ selectNext o capabilityId ↔ h ∈ o.heads := by
  refine ⟨selectNext_mem_heads o capabilityId, fun hh => ?_⟩
  have hlength : (headsByClock o).length ≤ maxCitedHeads := by
    rw [headsByClock, (sortBy_perm _ _).length_eq]
    exact hfew
  obtain ⟨hp, -⟩ | ⟨head, hhead, -, -⟩ := selectNext_cases o capabilityId
  · rw [hp.mem_iff, List.take_of_length_le hlength, mem_headsByClock]
    exact hh
  · rw [List.drop_of_length_le hlength] at hhead
    exact absurd hhead List.not_mem_nil

end Cited

/-- A held capability stays in the past of what is cited, however many heads there are. -/
theorem Indexed.past_selectNext (I : Indexed E o) {capability : Hash} (hc : o.Has capability) :
    o.Past (selectNext o (some capability)) capability := by
  have hreaches : ∀ h, reaches o (some capability) h = true → ReflTransGen o.Parent h capability := by
    intro h hr
    rw [reaches, Bool.or_eq_true, decide_eq_true_eq] at hr
    rcases hr with rfl | hr
    · exact .refl
    · obtain ⟨-, s, hs, hpath⟩ := I.grounded.inCausalPast_iff.mp hr
      exact List.mem_singleton.mp hs ▸ hpath
  obtain ⟨hp, ⟨h, hh, hr⟩ | hnone⟩ | ⟨head, -, hr, hp⟩ := selectNext_cases o (some capability)
  · exact ⟨h, hp.mem_iff.mpr hh, hreaches h hr⟩
  · obtain ⟨s, hs, hpath⟩ := I.crowned hc
    have hreach : reaches o (some capability) s = true := by
      rw [reaches, Bool.or_eq_true]
      exact Or.inr (I.grounded.inCausalPast_iff.mpr ⟨hc, s, List.mem_singleton_self s, hpath⟩)
    rw [hnone s ((mem_headsByClock o s).mpr hs)] at hreach
    exact absurd hreach (by decide)
  · exact ⟨head, hp.mem_iff.mpr (by simp), hreaches head hr⟩

/-! ## The entry that is built -/

theorem maxTime_le {next : List Hash} {bound : ℕ} (h : ∀ p ∈ next, clockOf o p ≤ bound) : maxTime o next ≤ bound := by
  induction next with
  | nil => exact Nat.zero_le _
  | cons p next ih =>
    rw [maxTime, List.map_cons, List.foldr_cons]
    exact max_le (h p List.mem_cons_self) (ih fun q hq => h q (List.mem_cons_of_mem p hq))

theorem foldl_max_clockOf (o : Oplog) (next : List Hash) (start : ℕ) :
    next.foldl (fun max hash => Nat.max max (clockOf o hash)) start = max start (maxTime o next) := by
  induction next generalizing start with
  | nil => simp [maxTime]
  | cons hash next ih =>
    rw [List.foldl_cons, ih, maxTime, maxTime, List.map_cons, List.foldr_cons]
    exact Nat.max_assoc _ _ _

/-- The capability a payload names. -/
def LocalPayload.capabilityId (payload : LocalPayload) : Option String :=
  payload.val.fields?.bind fun fields => fields.string? "capability_id"

/-- The entry `sign_local_entry` builds, before it is verified. -/
def localEntry (E : Environment) (o : Oplog) (payload : LocalPayload) (keyPair : KeyPair) : HashedEntry :=
  signedOn E o payload.val (selectNext o payload.capabilityId) keyPair

theorem signLocalEntry_eq (payload : LocalPayload) (keyPair : KeyPair) :
    signLocalEntry E o payload keyPair = (do
      assertNotDuplicate E o payload.val
      let next := selectNext o payload.capabilityId
      let unsigned ← buildUnsignedEntry o.chain.address payload.val next []
        ⟨E.publicKey keyPair.privateKey, maxTime o next + 1⟩
      verifyEntry E o (hashSignedEntry E (signEntry E unsigned keyPair))) := by
  simp only [signLocalEntry, foldl_max_clockOf, Nat.zero_max]
  rfl

theorem buildUnsignedEntry_eq_ok {address key : String} {value : Value} {next : List Hash} {time : ℕ}
    (hcids : ∀ p ∈ next, isProtocolCid p = true) (hcount : next.length ≤ maxEntryPointers)
    (hkey : isCompressedPubkey key = true) (htime : time ≤ Value.maxSafeInteger) :
    buildUnsignedEntry address value next [] ⟨key, time⟩ = .ok ⟨address, value, next, [], ⟨key, time⟩, "", ""⟩ := by
  have hread : ∀ fields : Fields, fields = [("id", .string address), ("payload", value),
      ("next", .array (next.map .string)), ("refs", .array (([] : List Hash).map .string)), ("v", .number 2),
      ("clock", .record [("id", .string key), ("time", .number time)])] →
      fields.string? "id" = some address ∧ fields.get "payload" = some value ∧ fields.isInt "v" 2 = true ∧
      fields.get "next" = some (.array (next.map .string)) ∧ fields.get "refs" = some (.array (([] : List Hash).map .string)) ∧
      fields.get "clock" = some (.record [("id", .string key), ("time", .number time)]) := by
    rintro _ rfl
    exact ⟨rfl, rfl, rfl, rfl, rfl, rfl⟩
  obtain ⟨hid, hpayload, hv, hnext, hrefs, hclock⟩ := hread _ rfl
  have hclockOk := assertClockFields_record_eq hkey htime
  simp only [buildUnsignedEntry, assertUnsignedFields, hid, hpayload, hv, if_true, hnext, hrefs, hclock, hclockOk,
    assertPointers_of_cids hcids hcount, assertPointers_of_cids (l := []) (by simp) (Nat.zero_le _)]
  rfl

theorem localEntry_next (payload : LocalPayload) (keyPair : KeyPair) :
    (localEntry E o payload keyPair).entry.next = selectNext o payload.capabilityId :=
  rfl

/-- Where the entry is well formed and the payload no duplicate, signing comes down to the verification. -/
theorem WellSigned.signLocalEntry_eq {payload : LocalPayload} {keyPair : KeyPair}
    (w : WellSigned E o payload.val (selectNext o payload.capabilityId) keyPair)
    (hfresh : assertNotDuplicate E o payload.val = .ok ()) :
    signLocalEntry E o payload keyPair = verifyEntry E o (localEntry E o payload keyPair) := by
  rw [RecordNode.signLocalEntry_eq, hfresh]
  simp only [bind, Except.bind]
  rw [buildUnsignedEntry_eq_ok w.cids w.count w.key w.clock]
  rfl

/-- What signing returns is the entry that was built, and it was verified. -/
theorem signLocalEntry_eq_ok {payload : LocalPayload} {keyPair : KeyPair} {e : VerifiedEntry}
    (h : signLocalEntry E o payload keyPair = .ok e) :
    e.toHashedEntry = localEntry E o payload keyPair ∧ verifyEntry E o (localEntry E o payload keyPair) = .ok e := by
  simp only [signLocalEntry_eq, bind_eq_ok] at h
  obtain ⟨⟨⟩, -, unsigned, hunsigned, hv⟩ := h
  rw [buildUnsignedEntry_eq hunsigned] at hv
  exact ⟨verifyEntry_toHashedEntry hv, hv⟩

/-- The clock of the built entry is the one its parents ask for. -/
theorem Indexed.assertClock_localEntry (I : Indexed E o) (payload : LocalPayload) (keyPair : KeyPair) :
    assertClock o (localEntry E o payload keyPair) = .ok () := by
  rw [assertClock_eq_ok_iff]
  exact ⟨fun p hp => ((I.heads p).mp (selectNext_mem_heads o _ hp)).1, rfl⟩

/-- A local entry is new where digests do not collide: no held entry has heads for parents. -/
theorem Sound.localEntry_new (s : Sound E chain o) (hE : E.CodecLaw) (a : Authentic E o) {payload : LocalPayload}
    {keyPair : KeyPair} {e : VerifiedEntry} (h : signLocalEntry E o payload keyPair = .ok e)
    (hinj : Set.InjOn E.sha3 (insert e.bytes o.blocks)) : ¬ o.Has e.hash := by
  rintro ⟨x, hx⟩
  have hblocks : ({x.bytes, e.bytes} : Set Bytes) ⊆ insert e.bytes o.blocks := by
    rintro b (rfl | rfl)
    · exact Set.mem_insert_of_mem _ ⟨e.hash, x, hx, rfl⟩
    · exact Set.mem_insert _ _
  have heq := eq_of_hash_eq (a _ x hx) (signLocalEntry_authentic hE h) (hinj.mono hblocks) (s.indexed.grounded.keyed _ x hx)
  have hnext : x.next = selectNext o payload.capabilityId := by
    rw [VerifiedEntry.next, heq, (signLocalEntry_eq_ok h).1]
    rfl
  obtain ⟨head, hhead, -⟩ := s.indexed.crowned ⟨x, hx⟩
  -- The oplog has a head, so the entry cites one, and then it is no head.
  obtain ⟨p, hp⟩ := exists_mem_selectNext o payload.capabilityId hhead
  exact ((s.indexed.heads p).mp (selectNext_mem_heads o _ hp)).2 _ x hx (hnext ▸ hp)

/-- The oplog once an append returned or threw. -/
def Oplog.after (o : Oplog) : Checked Appended → Oplog
  | .ok result => result.oplog
  | .error _ => o

/-- What is built cites distinct heads, in order, no more than allowed, with the clock they ask for
and a held capability in the past. Appended, it takes the place of the heads it cites. -/
theorem local_signing (hE : E.CodecLaw) (ho : Reachable E chain o) (payload : LocalPayload) (keyPair : KeyPair)
    (hinj : Set.InjOn E.sha3 (insert (localEntry E o payload keyPair).bytes o.blocks)) :
    (∀ h ∈ (localEntry E o payload keyPair).entry.next, h ∈ o.heads) ∧
    (localEntry E o payload keyPair).entry.next.Nodup ∧
    (localEntry E o payload keyPair).entry.next.length ≤ 256 ∧
    ((localEntry E o payload keyPair).entry.next.Pairwise fun a b => codeUnits a < codeUnits b) ∧
    assertClock o (localEntry E o payload keyPair) = .ok () ∧
    (∀ c, payload.capabilityId = some c → o.Has c →
      inCausalPast o.entries c (localEntry E o payload keyPair).entry.next = true) ∧
    (∀ e, signLocalEntry E o payload keyPair = .ok e → e.toHashedEntry = localEntry E o payload keyPair ∧
      (∃ result, appendEntryWithAccess E o payload keyPair = .ok result ∧ result.entry = e) ∧
      ∀ h, h ∈ (o.after (appendEntryWithAccess E o payload keyPair)).heads ↔ h = e.hash ∨ (h ∈ o.heads ∧ h ∉ e.next)) ∧
    ∀ refusal, signLocalEntry E o payload keyPair = .error refusal →
      appendEntryWithAccess E o payload keyPair = .error refusal ∧
      o.after (appendEntryWithAccess E o payload keyPair) = o := by
  have s := reachable_sound ho
  refine ⟨fun h => selectNext_mem_heads o _, selectNext_nodup o _, selectNext_length_le o _, selectNext_sorted o _,
    s.indexed.assertClock_localEntry payload keyPair, ?_, ?_, ?_⟩
  · intro c hc hh
    refine s.indexed.grounded.inCausalPast_iff.mpr ⟨hh, ?_⟩
    change o.Past (selectNext o payload.capabilityId) c
    rw [hc]
    exact s.indexed.past_selectNext hh
  · intro e he
    have heq := (signLocalEntry_eq_ok he).1
    have hnew : ¬ o.Has e.hash := s.localEntry_new hE (reachable_authentic hE ho) he (by rwa [heq])
    have hparents := (verifyEntry_parents (signLocalEntry_verified he)).1
    have happend : appendEntryWithAccess E o payload keyPair =
        .ok ⟨(settle E (insertEntry E o e) [e]).1, e, (settle E (insertEntry E o e) [e]).2⟩ := by
      rw [appendEntryWithAccess, he]
      rfl
    refine ⟨heq, ⟨_, happend, rfl⟩, fun h => ?_⟩
    rw [happend, Oplog.after, (settle_base _ _).heads, mem_heads_insertEntry hnew s.indexed.referenced_has hparents]
  · intro refusal hr
    have happend : appendEntryWithAccess E o payload keyPair = .error refusal := by
      rw [appendEntryWithAccess, hr]
      rfl
    exact ⟨happend, by rw [happend, Oplog.after]⟩

namespace Sample

/-- The guest's grant as it would sign it itself. -/
def guestPayload : LocalPayload := ⟨grantPayload (some first.hash), grantPayload_canonical _⟩

theorem mem_heads_withFirst (h : Hash) : h ∈ withFirst.heads ↔ h = first.hash := by
  rw [((reachable_sound withFirst_reachable).indexed.heads h)]
  constructor
  · rintro ⟨⟨e, he⟩, -⟩
    by_contra hne
    rw [get_withFirst, if_neg hne] at he
    simp at he
  · rintro rfl
    refine ⟨⟨first, withFirst_first⟩, fun x e he hm => ?_⟩
    rw [get_withFirst] at he
    split at he
    · obtain rfl := Option.some_inj.mp he
      exact absurd hm List.not_mem_nil
    · simp at he

theorem selectNext_withFirst (capabilityId : Option String) : selectNext withFirst capabilityId = [first.hash] := by
  have hall : ∀ h ∈ selectNext withFirst capabilityId, h = first.hash := fun h hm =>
    (mem_heads_withFirst h).mp (selectNext_mem_heads _ _ hm)
  obtain ⟨p, hp⟩ := exists_mem_selectNext withFirst capabilityId ((mem_heads_withFirst first.hash).mpr rfl)
  have hone := List.eq_replicate_of_mem hall
  have hnodup := selectNext_nodup withFirst capabilityId
  rw [hone, List.nodup_replicate] at hnodup
  have hpos := List.length_pos_of_mem hp
  rw [hone, show (selectNext withFirst capabilityId).length = 1 by omega]
  rfl

/-! Once the first grant is revoked there are two heads: the guest's last grant and the revocation. -/

theorem mem_heads_revoked (h : Hash) : h ∈ revoked.heads ↔ h = third.hash ∨ h = revocation.hash := by
  have s := reachable_sound revoked_reachable
  rw [s.indexed.heads h]
  constructor
  · rintro ⟨⟨e, he⟩, hchildless⟩
    obtain rfl := s.indexed.grounded.keyed h e he
    rcases held_revoked he with rfl | rfl | rfl | rfl
    · exact absurd (List.mem_singleton_self _) (hchildless _ second revoked_second)
    · exact absurd (List.mem_singleton_self _) (hchildless _ third revoked_third)
    · exact .inl rfl
    · exact .inr rfl
  · have hparents : ∀ x e, revoked.entries.get x = some e → ∀ p ∈ e.next, p = first.hash ∨ p = second.hash := by
      intro x e he p hp
      rcases held_revoked he with rfl | rfl | rfl | rfl
      · exact absurd hp List.not_mem_nil
      · exact .inl (List.mem_singleton.mp hp)
      · exact .inr (List.mem_singleton.mp hp)
      · exact .inl (List.mem_singleton.mp hp)
    rintro (rfl | rfl)
    · exact ⟨⟨third, revoked_third⟩, fun x e he hm =>
        (hparents x e he _ hm).elim (fun h => first_ne_third h.symm) fun h => second_ne_third h.symm⟩
    · exact ⟨⟨revocation, revoked_revocation⟩, fun x e he hm =>
        (hparents x e he _ hm).elim (fun h => first_ne_revocation h.symm) fun h => second_ne_revocation h.symm⟩

theorem revoked_heads_length : revoked.heads.items.length ≤ 2 := by
  have hsub : revoked.heads.items ⊆ [third.hash, revocation.hash] := fun h hm => by
    simpa using (mem_heads_revoked h).mp ((OrderedSet.mem_items _ _).mp hm)
  exact (List.subperm_of_subset revoked.heads.nodup hsub).length_le

theorem mem_selectNext_revoked (capabilityId : Option String) (h : Hash) :
    h ∈ selectNext revoked capabilityId ↔ h = third.hash ∨ h = revocation.hash :=
  (mem_selectNext_iff _ _ (revoked_heads_length.trans (by decide)) h).trans (mem_heads_revoked h)

theorem selectNext_revoked_length (capabilityId : Option String) : (selectNext revoked capabilityId).length ≤ 2 := by
  have hsub : selectNext revoked capabilityId ⊆ [third.hash, revocation.hash] := fun h hm => by
    simpa using (mem_selectNext_revoked capabilityId h).mp hm
  exact (List.subperm_of_subset (selectNext_nodup _ _) hsub).length_le

/-- The later of the two heads sets the clock. -/
theorem maxTime_revoked (capabilityId : Option String) : maxTime revoked (selectNext revoked capabilityId) = 3 := by
  have hthird : clockOf revoked third.hash = 3 := by rw [clockOf_eq revoked_third, third_time]
  have hrevocation : clockOf revoked revocation.hash = 2 := by rw [clockOf_eq revoked_revocation, revocation_time]
  refine le_antisymm (maxTime_le fun h hm => ?_) ?_
  · rcases (mem_selectNext_revoked capabilityId h).mp hm with rfl | rfl
    · exact hthird.le
    · exact hrevocation.trans_le (by decide)
  · exact hthird ▸ clockOf_le_maxTime revoked ((mem_selectNext_revoked capabilityId third.hash).mpr (.inl rfl))

/-- The owner signs the guest's grant once more. -/
def ownerGrant : VerifiedEntry := ⟨localEntry clockEnvironment revoked guestPayload owner, grantOperation (some first.hash)⟩

theorem wellSigned_ownerGrant : WellSigned clockEnvironment revoked guestPayload.val
    (selectNext revoked guestPayload.capabilityId) owner := by
  have hhead (p : Hash) (hp : p ∈ selectNext revoked guestPayload.capabilityId) : isProtocolCid p = true ∧ p.length ≤ 273 := by
    rcases (mem_selectNext_revoked _ p).mp hp with rfl | rfl
    · exact ⟨isProtocolCid_formatProtocolCid _, formatProtocolCid_length_le _⟩
    · exact ⟨isProtocolCid_formatProtocolCid _, formatProtocolCid_length_le _⟩
  have hc : ∀ x ∈ some first.hash, x.length ≤ 273 := by
    rintro x ⟨⟩
    exact formatProtocolCid_length_le _
  refine wellSigned hhead ((selectNext_revoked_length _).trans (by decide)) ?_ ?_ (put_grantPayload_length hc)
  · rw [maxTime_revoked]
    decide
  · rw [(reachable_sound revoked_reachable).chain_eq]
    decide

/-- A grant is no track, so nothing is looked for. -/
theorem assertNotDuplicate_guestPayload {o : Oplog} (htype : o.chain.type = .recordstore) :
    assertNotDuplicate clockEnvironment o guestPayload.val = .ok () := by
  have hvalid := validate_grantPayload false (some first.hash)
  rw [assertNotDuplicate, htype, if_neg (by decide)]
  change (do let operation ← validateOperation clockEnvironment .recordstore false (grantPayload (some first.hash)); _) = _
  rw [hvalid]
  rfl

theorem signLocalEntry_ownerGrant : signLocalEntry clockEnvironment revoked guestPayload owner = .ok ownerGrant := by
  have hchain : revoked.chain = libraryA := (reachable_sound revoked_reachable).chain_eq
  have htype : revoked.chain.type = .recordstore := by rw [hchain]; rfl
  have hheld : ∀ p ∈ selectNext revoked guestPayload.capabilityId, revoked.Has p := fun p hp =>
    ((reachable_sound revoked_reachable).indexed.heads p).mp (selectNext_mem_heads _ _ hp) |>.1
  rw [wellSigned_ownerGrant.signLocalEntry_eq (assertNotDuplicate_guestPayload htype)]
  refine wellSigned_ownerGrant.verify htype ?_ hheld (authorise_owner hchain _ _ _)
  rw [htype]
  exact validate_grantPayload _ _

theorem ownerGrant_toHashedEntry : ownerGrant.toHashedEntry = localEntry clockEnvironment revoked guestPayload owner := by
  rw [ownerGrant]

theorem ownerGrant_next : (localEntry clockEnvironment revoked guestPayload owner).entry.next = ownerGrant.next := by
  rw [VerifiedEntry.next, ownerGrant_toHashedEntry]

theorem guestPayload_capabilityId : guestPayload.capabilityId = some first.hash := by
  rw [LocalPayload.capabilityId, guestPayload]
  rfl

theorem mem_ownerGrant_next (h : Hash) : h ∈ ownerGrant.next ↔ h ∈ revoked.heads := by
  have hnext : ownerGrant.next = selectNext revoked guestPayload.capabilityId := by
    rw [ownerGrant, VerifiedEntry.next, localEntry_next]
  rw [hnext, mem_selectNext_revoked, mem_heads_revoked]

theorem ownerGrant_hash : ownerGrant.hash = formatProtocolCid (mark 4 'c') :=
  hash_signedOn (by rw [maxTime_revoked]) (by decide)

theorem sha3_injOn : Set.InjOn clockEnvironment.sha3
    (insert (localEntry clockEnvironment revoked guestPayload owner).bytes revoked.blocks) := by
  have hdecodes : ∀ e ∈ [ownerGrant, first, second, third, revocation],
      decodeSignedEntry clockEnvironment e.bytes = .ok e.toHashedEntry := by
    simp only [List.forall_mem_cons]
    exact ⟨wellSigned_ownerGrant.decode clockEnvironment_codecLaw guestPayload.property, joins_first.decodes,
      joins_second.decodes, joins_third.decodes, joins_revocation.decodes, by simp⟩
  have hne {e : VerifiedEntry} {t : ℕ} {a : Char} (he : e.hash = formatProtocolCid (mark t a))
      (h : (t < 256 ∧ a.toNat < 256) ∧ t ≠ 4) : ownerGrant.hash ≠ e.hash :=
    hash_ne_of_mark ownerGrant_hash he ⟨⟨by decide, h.1.1, by decide, h.1.2⟩, .inl h.2.symm⟩
  have hnodup : ([ownerGrant, first, second, third, revocation].map (·.hash)).Nodup := by
    simp [hne first_hash (by decide), hne second_hash (by decide), hne third_hash (by decide), hne revocation_hash (by decide),
      first_ne_second, first_ne_third, first_ne_revocation, second_ne_third, second_ne_revocation, third_ne_revocation]
  have hmem {e : VerifiedEntry} (he : e ∈ [ownerGrant, first, second, third, revocation]) :
      e.bytes ∈ [ownerGrant, first, second, third, revocation].map (·.bytes) := List.mem_map_of_mem he
  rw [← ownerGrant_toHashedEntry]
  refine (injOn_of_hashes hdecodes hnodup).mono ?_
  rintro b (rfl | ⟨h, e, he, rfl⟩)
  · exact hmem List.mem_cons_self
  · refine hmem (List.mem_cons_of_mem _ ?_)
    rcases held_revoked he with rfl | rfl | rfl | rfl <;> simp

end Sample

open Sample in
/-- The owner signs on top of the guest's last grant and the revocation beside it, under the first grant.
It cites both heads and takes their place. -/
theorem local_signing_two_heads :
    signLocalEntry clockEnvironment revoked guestPayload owner = .ok ownerGrant ∧
      (∀ h, h ∈ revoked.heads ↔ h = third.hash ∨ h = revocation.hash) ∧
      (ownerGrant.next.Pairwise fun a b => codeUnits a < codeUnits b) ∧ assertClock revoked ownerGrant.toHashedEntry = .ok () ∧
      inCausalPast revoked.entries first.hash ownerGrant.next = true ∧
      ∀ h, h ∈ (revoked.after (appendEntryWithAccess clockEnvironment revoked guestPayload owner)).heads ↔
        h = ownerGrant.hash := by
  obtain ⟨-, -, -, hsorted, hclock, hpast, hsigned, -⟩ :=
    local_signing clockEnvironment_codecLaw revoked_reachable guestPayload owner sha3_injOn
  obtain ⟨-, -, hheads⟩ := hsigned _ signLocalEntry_ownerGrant
  rw [← ownerGrant_toHashedEntry] at hclock
  rw [ownerGrant_next] at hsorted hpast
  refine ⟨signLocalEntry_ownerGrant, mem_heads_revoked, hsorted, hclock,
    hpast first.hash guestPayload_capabilityId ⟨first, revoked_first⟩, ?_⟩
  intro h
  rw [hheads h, mem_ownerGrant_next]
  simp

end RecordNode
