import RecordNode.Fabric.Coverage
import RecordNode.Fabric.Turns

/-! # The eviction gate

Every interleaving of pins, unpins and evictions over contents in which each
multihash has one name. What the calls know of the tables and of the store stays
true from the step that learns it to the step that uses it, because calls on one
root take turns and an eviction and a walk are never in the gate together. -/

namespace RecordNode

open Foundation

namespace PinGate

/-- A pin on this root is live and covers at least what the call asked for. -/
def Holds (live : LivePins) (cid : Cid) (recursive : Bool) : Prop :=
  ∃ kind, live.get cid = some kind ∧ (recursive = true → kind = true)

/-- The pin is not there yet, or makes a direct one recursive. -/
def Fresh (kind : Option Bool) (recursive : Bool) : Prop :=
  ¬ (kind = some true ∨ kind = some false ∧ !recursive)

def Uncovered (C : Contents) (live : LivePins) (m : Multihash) : Prop :=
  ∀ cid kind, live.get cid = some kind → ¬ C.covers cid kind m = true

/-- What a call under way has learned and still relies on. -/
def CallSound (C : Contents) (live : LivePins) (stored : OrderedSet Multihash) : PinCall → Prop
  | .pin cid recursive (.gate kind _) => live.get cid = kind ∧ Fresh kind recursive
  | .pin cid recursive (.walking kind walk) =>
    live.get cid = kind ∧ Fresh kind recursive ∧ WalkSound C recursive cid walk ∧
      ∀ c ∈ walk.visited, c.multihash ∈ stored
  | .pin cid recursive (.leaving true) => Holds live cid recursive
  | .unpin cid (.walking kind walk) => live.get cid = some kind ∧ WalkSound C kind cid walk
  | .evict cid .unpinned => Uncovered C live cid.multihash
  | .evict cid .removing => Uncovered C live cid.multihash
  | _ => True

/-- The transaction of the call has been applied. -/
def isFulfilled : PinCall → Bool
  | .pin _ _ (.leaving true) => true
  | .pin _ _ (.done true) => true
  | .unpin _ (.done true) => true
  | _ => false

structure Sound {C : Contents} (N : Naming C) (s : PinGate) : Prop where
  accounts : Accounts C.covers s.tables s.live
  kept : ∀ cid kind m, s.live.get cid = some kind → C.covers cid kind m = true → m ∈ s.stored
  liveNamed : ∀ cid kind, s.live.get cid = some kind → cid ∈ N.cids
  named : ∀ (i : ℕ) (a : PinCall), s.calls[i]? = some a → a.cid ∈ N.cids
  calls : ∀ (i : ℕ) (a : PinCall), s.calls[i]? = some a → CallSound C s.live s.stored a
  applied : ∀ (i : ℕ) (a : PinCall), s.calls[i]? = some a → i ∈ s.applied → isFulfilled a = true
  issued : ∀ i ∈ s.applied, i < s.calls.length

section Steps
variable {C : Contents} {N : Naming C} {s t : PinGate} {i : ℕ} {old new : PinCall}

theorem Sound.unaliased (h : Sound N s) {cid : Cid} (hc : cid ∈ N.cids) : Unaliased s.live cid :=
  fun other kind ho hm => N.injOn (h.liveNamed other kind ho) hc hm

/-- A call moves on, whatever its step does to the rest. -/
theorem Sound.update (h : Sound N s) (hold : s.calls[i]? = some old) (hcalls : t.calls = s.calls.set i new)
    (hcid : new.cid = old.cid) (haccounts : Accounts C.covers t.tables t.live)
    (hkept : ∀ cid kind m, t.live.get cid = some kind → C.covers cid kind m = true → m ∈ t.stored)
    (hlive : ∀ cid kind, t.live.get cid = some kind → cid ∈ N.cids) (hnew : CallSound C t.live t.stored new)
    (hothers : ∀ (j : ℕ) (a : PinCall), j ≠ i → s.calls[j]? = some a → CallSound C t.live t.stored a)
    (happlied : ∀ j ∈ t.applied, j ∈ s.applied ∨ j = i) (hful : i ∈ t.applied → isFulfilled new = true) :
    Sound N t where
  accounts := haccounts
  kept := hkept
  liveNamed := hlive
  named := by
    intro j a ha
    rw [hcalls] at ha
    rcases get_set_calls hold ha with ⟨rfl, rfl⟩ | ⟨-, ha⟩
    · exact hcid ▸ h.named j old hold
    · exact h.named j a ha
  calls := by
    intro j a ha
    rw [hcalls] at ha
    rcases get_set_calls hold ha with ⟨-, rfl⟩ | ⟨hj, ha⟩
    · exact hnew
    · exact hothers j a hj ha
  applied := by
    intro j a ha hj
    rw [hcalls] at ha
    rcases get_set_calls hold ha with ⟨rfl, rfl⟩ | ⟨hji, ha⟩
    · exact hful hj
    · exact h.applied j a ha ((happlied j hj).resolve_right hji)
  issued := by
    intro j hj
    rw [hcalls, List.length_set]
    rcases happlied j hj with hj | rfl
    · exact h.issued j hj
    · exact (List.getElem?_eq_some_iff.mp hold).1

/-- A call that moves on without touching tables, pins or store. -/
theorem Sound.move (h : Sound N s) (hold : s.calls[i]? = some old) (hcalls : t.calls = s.calls.set i new)
    (htables : t.tables = s.tables) (hlive : t.live = s.live) (hstored : t.stored = s.stored)
    (happlied : t.applied = s.applied) (hcid : new.cid = old.cid) (hnew : CallSound C s.live s.stored new)
    (hful : isFulfilled old = true → isFulfilled new = true) : Sound N t := by
  refine h.update hold hcalls hcid ?_ ?_ ?_ ?_ ?_ ?_ ?_
  · rw [htables, hlive]
    exact h.accounts
  · rw [hlive, hstored]
    exact h.kept
  · rw [hlive]
    exact h.liveNamed
  · rw [hlive, hstored]
    exact hnew
  · rw [hlive, hstored]
    exact fun j a _ ha => h.calls j a ha
  · rw [happlied]
    exact fun j hj => Or.inl hj
  · rw [happlied]
    exact fun hi => hful (h.applied i old hold hi)

/-- The same for a call whose transaction has not been applied. -/
theorem Sound.advance (h : Sound N s) (hold : s.calls[i]? = some old) (hcalls : t.calls = s.calls.set i new)
    (htables : t.tables = s.tables) (hlive : t.live = s.live) (hstored : t.stored = s.stored)
    (happlied : t.applied = s.applied) (hcid : new.cid = old.cid) (hnew : CallSound C s.live s.stored new)
    (hful : isFulfilled old = false) : Sound N t :=
  h.move hold hcalls htables hlive hstored happlied hcid hnew fun hf => absurd (hful.symm.trans hf) Bool.false_ne_true

theorem Sound.append (h : Sound N s) {call : PinCall} (hcalls : t.calls = s.calls ++ [call])
    (htables : t.tables = s.tables) (hlive : t.live = s.live) (hstored : t.stored = s.stored)
    (happlied : t.applied = s.applied) (hcid : call.cid ∈ N.cids) (hnew : CallSound C s.live s.stored call) :
    Sound N t := by
  have hcase : ∀ {j : ℕ} {a : PinCall}, t.calls[j]? = some a →
      (a = call ∧ j = s.calls.length) ∨ s.calls[j]? = some a := by
    intro j a ha
    rw [hcalls, List.getElem?_append] at ha
    split at ha
    case isTrue => exact Or.inr ha
    case isFalse hge =>
      have hlt := (List.getElem?_eq_some_iff.mp ha).1
      refine Or.inl ⟨List.mem_singleton.mp (List.mem_of_getElem? ha), ?_⟩
      simp only [List.length_singleton] at hlt
      omega
  refine ⟨?_, ?_, ?_, ?_, ?_, ?_, ?_⟩
  · rw [htables, hlive]
    exact h.accounts
  · rw [hlive, hstored]
    exact h.kept
  · rw [hlive]
    exact h.liveNamed
  · intro j a ha
    rcases hcase ha with ⟨rfl, -⟩ | ha
    · exact hcid
    · exact h.named j a ha
  · intro j a ha
    rw [hlive, hstored]
    rcases hcase ha with ⟨rfl, -⟩ | ha
    · exact hnew
    · exact h.calls j a ha
  · intro j a ha hj
    rw [happlied] at hj
    rcases hcase ha with ⟨-, rfl⟩ | ha
    · exact absurd (h.issued _ hj) (Nat.lt_irrefl _)
    · exact h.applied j a ha hj
  · intro j hj
    rw [hcalls, List.length_append]
    exact Nat.lt_add_right _ (h.issued j (happlied ▸ hj))

theorem Sound.start (h : Sound N s) (ht : s.start i = some t) : Sound N t := by
  unfold PinGate.start at ht
  split at ht
  case h_1 cid recursive hc =>
    split at ht
    case isFalse => cases ht
    case isTrue =>
      have hkind := h.accounts.rootKind_eq (h.unaliased (h.named i _ hc))
      simp only at ht
      split at ht <;> obtain rfl := Option.some_inj.mp ht
      case isTrue => exact h.advance hc rfl rfl rfl rfl rfl rfl trivial rfl
      case isFalse hfresh => exact h.advance hc rfl rfl rfl rfl rfl rfl ⟨hkind.symm, hfresh⟩ rfl
  case h_2 cid hc =>
    split at ht
    case isFalse => cases ht
    case isTrue =>
      have hkind := h.accounts.rootKind_eq (h.unaliased (h.named i _ hc))
      split at ht <;> obtain rfl := Option.some_inj.mp ht
      case h_1 => exact h.advance hc rfl rfl rfl rfl rfl rfl trivial rfl
      case h_2 kind hk => exact h.advance hc rfl rfl rfl rfl rfl rfl ⟨hkind.symm.trans hk, .start⟩ rfl
  case h_3 => cases ht

theorem Sound.gate (h : Sound N s) (ht : s.gate i = some t) : Sound N t := by
  unfold PinGate.gate at ht
  split at ht
  case h_1 cid recursive kind awaited hc =>
    obtain ⟨hkind, hfresh⟩ := h.calls i _ hc
    split at ht
    case h_1 =>
      obtain rfl := Option.some_inj.mp ht
      refine h.advance hc rfl rfl rfl rfl rfl rfl ⟨hkind, hfresh, .start, ?_⟩ rfl
      exact fun c hv => absurd hv (OrderedSet.mem_empty c)
    case h_2 =>
      split at ht
      · cases ht
      · obtain rfl := Option.some_inj.mp ht
        exact h.advance hc rfl rfl rfl rfl rfl rfl ⟨hkind, hfresh⟩ rfl
  case h_2 cid awaited hc =>
    split at ht
    case h_1 =>
      split at ht <;> obtain rfl := Option.some_inj.mp ht
      · exact h.advance hc rfl rfl rfl rfl rfl rfl trivial rfl
      · exact h.advance hc rfl rfl rfl rfl rfl rfl trivial rfl
    case h_2 =>
      split at ht
      · cases ht
      · obtain rfl := Option.some_inj.mp ht
        exact h.advance hc rfl rfl rfl rfl rfl rfl trivial rfl
  case h_3 => cases ht

theorem Sound.visit (h : Sound N s) (ht : s.visit C i = some t) : Sound N t := by
  unfold PinGate.visit at ht
  split at ht
  case h_1 cid recursive kind walk hc =>
    obtain ⟨hkind, hfresh, hwalk, hvisited⟩ := h.calls i _ hc
    obtain ⟨r, hr, rfl⟩ := Option.map_eq_some_iff.mp ht
    cases r with
    | error e => exact h.advance hc rfl rfl rfl rfl rfl rfl trivial rfl
    | ok next =>
      obtain ⟨hnext, hseen⟩ := hwalk.visit hr
      refine h.advance hc rfl rfl rfl rfl rfl rfl ⟨hkind, hfresh, hnext, fun c hv => ?_⟩ rfl
      exact (hseen c hv).elim (hvisited c) id
  case h_2 cid kind walk hc =>
    obtain ⟨hkind, hwalk⟩ := h.calls i _ hc
    obtain ⟨r, hr, rfl⟩ := Option.map_eq_some_iff.mp ht
    cases r with
    | error e => exact h.advance hc rfl rfl rfl rfl rfl rfl trivial rfl
    | ok next => exact h.advance hc rfl rfl rfl rfl rfl rfl ⟨hkind, (hwalk.visit hr).1⟩ rfl
  case h_3 => cases ht

theorem Sound.visitFailed (h : Sound N s) (ht : s.visitFailed i = some t) : Sound N t := by
  unfold PinGate.visitFailed at ht
  split at ht
  case h_1 hc =>
    obtain rfl := Option.some_inj.mp ht
    exact h.advance hc rfl rfl rfl rfl rfl rfl trivial rfl
  case h_2 hc =>
    obtain rfl := Option.some_inj.mp ht
    exact h.advance hc rfl rfl rfl rfl rfl rfl trivial rfl
  case h_3 => cases ht

theorem Sound.leave (h : Sound N s) (ht : s.leave i = some t) : Sound N t := by
  unfold PinGate.leave at ht
  split at ht
  case h_1 cid recursive fulfilled hc =>
    obtain rfl := Option.some_inj.mp ht
    have hout : Sound N { s.setCall i (.pin cid recursive (.done fulfilled)) with walking := s.walking - 1 } := by
      refine h.move hc rfl rfl rfl rfl rfl rfl trivial ?_
      cases fulfilled <;> exact id
    simp only [leaveWalk]
    split
    case isFalse => exact hout
    case isTrue =>
      split
      case h_1 => exact hout
      case h_2 =>
        split
        case h_1 hw => exact hout.advance hw rfl rfl rfl rfl rfl rfl trivial rfl
        case h_2 => exact hout
  case h_2 cid hc =>
    obtain rfl := Option.some_inj.mp ht
    exact h.advance hc rfl rfl rfl rfl rfl rfl trivial rfl
  case h_3 => cases ht

/-- What a call relies on stays true when nothing changes on its own root, no covered block
becomes of interest to it, and no block leaves the store under its walk. -/
theorem CallSound.transfer {live live' : LivePins} {stored stored' : OrderedSet Multihash} {a : PinCall}
    (h : CallSound C live stored a)
    (hget : a.root ≠ none → a.isQueued = false → a.isDone = false → live'.get a.cid = live.get a.cid)
    (hun : a.runsEviction = true → ∀ m, Uncovered C live m → Uncovered C live' m)
    (hst : a.isWalking = true → ∀ m ∈ stored, m ∈ stored') : CallSound C live' stored' a := by
  match a, h with
  | .pin cid recursive (.gate kind _), h => exact ⟨(hget nofun rfl rfl).trans h.1, h.2⟩
  | .pin cid recursive (.walking kind walk), ⟨hk, hf, hw, hv⟩ =>
    exact ⟨(hget nofun rfl rfl).trans hk, hf, hw, fun c hc => hst rfl _ (hv c hc)⟩
  | .pin cid recursive (.leaving true), ⟨kind, hk, hr⟩ => exact ⟨kind, (hget nofun rfl rfl).trans hk, hr⟩
  | .unpin cid (.walking kind walk), h => exact ⟨(hget nofun rfl rfl).trans h.1, h.2⟩
  | .evict cid .unpinned, h => exact hun rfl _ h
  | .evict cid .removing, h => exact hun rfl _ h
  | .pin _ _ .queued, _ => exact trivial
  | .pin _ _ (.leaving false), _ => exact trivial
  | .pin _ _ (.done _), _ => exact trivial
  | .unpin _ .queued, _ => exact trivial
  | .unpin _ (.done _), _ => exact trivial
  | .evict _ (.gate _), _ => exact trivial
  | .evict _ .waiting, _ => exact trivial
  | .evict _ .ready, _ => exact trivial
  | .evict _ .leaving, _ => exact trivial
  | .evict _ .done, _ => exact trivial

/-- A call under way on a root keeps the others off it. -/
theorem Gated.other_root (hg : Gated s) (hold : s.calls[i]? = some old) (hroot : old.root = some old.cid.multihash)
    (hq : old.isQueued = false) (hd : old.isDone = false) {j : ℕ} {a : PinCall} (hj : j ≠ i)
    (ha : s.calls[j]? = some a) (har : a.root ≠ none) (haq : a.isQueued = false) (had : a.isDone = false) :
    a.cid ≠ old.cid := by
  intro heq
  have haroot : a.root = some a.cid.multihash := by
    cases a with
    | pin => rfl
    | unpin => rfl
    | evict => exact absurd rfl har
  exact hg.exclusive ha hold hj (haroot.trans (heq ▸ hroot.symm)) har haq had hq hd

theorem mem_applied_transaction {limit : Option ℕ} {ok : Bool} {tables : PinTables} {live : LivePins} {j : ℕ}
    (h : j ∈ (s.transaction limit i ok tables live).applied) : j ∈ s.applied ∨ (j = i ∧ ok = true) := by
  unfold transaction at h
  cases limit <;> cases ok <;> simp at h <;> tauto

theorem transaction_ok (s : PinGate) (limit : Option ℕ) (i : ℕ) (tables : PinTables) (live : LivePins) :
    (s.transaction limit i true tables live).tables = tables ∧
      (s.transaction limit i true tables live).live = live := by
  unfold transaction
  cases limit <;> exact ⟨rfl, rfl⟩

theorem Sound.commit (h : Sound N s) (hg : Gated s) {limit : Option ℕ} {ok : Bool}
    (hok : ok = false → limit = none) (ht : s.commit limit i ok = some t) : Sound N t := by
  unfold PinGate.commit at ht
  split at ht
  case h_1 cid recursive kind visited hc =>
    obtain rfl := Option.some_inj.mp ht
    cases ok with
    | false =>
      obtain rfl := hok rfl
      exact h.advance hc rfl rfl rfl rfl rfl rfl trivial rfl
    | true =>
      obtain ⟨rfl, hfresh, hwalk, hvisited⟩ := h.calls i _ hc
      have hcid : cid ∈ N.cids := h.named i _ hc
      obtain ⟨hcalls, -, -, hstored⟩ := s.transaction_frame limit i true
        (s.tables.countPin (s.live.get cid) cid recursive visited.items) (s.live.set cid recursive)
      obtain ⟨htables, hlive⟩ := s.transaction_ok limit i
        (s.tables.countPin (s.live.get cid) cid recursive visited.items) (s.live.set cid recursive)
      refine h.update hc (congrArg (List.set · i _) hcalls) rfl ?_ ?_ ?_ ?_ ?_ ?_ (fun _ => rfl)
      all_goals simp only [setCall, htables, hlive, hstored]
      · exact h.accounts.countPin (h.unaliased hcid) (hwalk.covered N hcid)
          (fun _ => Contents.covers_direct cid) fun hk => hfresh (Or.inl hk)
      · intro other k m ho hm
        rw [OrderedMap.get_set] at ho
        split at ho
        case isTrue heq =>
          obtain rfl := Option.some_inj.mp ho
          subst heq
          obtain ⟨c, hr, rfl⟩ := Contents.covers_iff.mp hm
          exact hvisited c ((hwalk.mem_iff c).mpr hr)
        case isFalse => exact h.kept other k m ho hm
      · intro other k ho
        rw [OrderedMap.get_set] at ho
        split at ho
        case isTrue heq => exact heq ▸ hcid
        case isFalse => exact h.liveNamed other k ho
      · exact ⟨recursive, by simp, id⟩
      · intro j a hj ha
        refine (h.calls j a ha).transfer ?_ ?_ fun _ _ hm => hm
        · intro har haq had
          have hne : a.cid ≠ cid := hg.other_root hc rfl rfl rfl hj ha har haq had
          rw [OrderedMap.get_set, if_neg hne]
        · exact fun hr => (hg.apart hc rfl ha hr).elim
      · exact fun j hj => (mem_applied_transaction hj).imp_right And.left
  case h_2 cid kind visited hc =>
    obtain rfl := Option.some_inj.mp ht
    cases ok with
    | false =>
      obtain rfl := hok rfl
      exact h.advance hc rfl rfl rfl rfl rfl rfl trivial rfl
    | true =>
      obtain ⟨hk, hwalk⟩ := h.calls i _ hc
      have hcid : cid ∈ N.cids := h.named i _ hc
      obtain ⟨hcalls, -, -, hstored⟩ := s.transaction_frame limit i true
        (s.tables.countUnpin cid visited.items) (s.live.delete cid)
      obtain ⟨htables, hlive⟩ := s.transaction_ok limit i (s.tables.countUnpin cid visited.items)
        (s.live.delete cid)
      have hsub : ∀ other k, (s.live.delete cid).get other = some k → s.live.get other = some k := by
        intro other k ho
        rw [OrderedMap.get_delete] at ho
        split at ho
        · cases ho
        · exact ho
      refine h.update hc (congrArg (List.set · i _) hcalls) rfl ?_ ?_ ?_ trivial ?_ ?_ (fun _ => rfl)
      all_goals simp only [setCall, htables, hlive, hstored]
      · exact h.accounts.countUnpin hk (hwalk.covered N hcid)
      · exact fun other k m ho hm => h.kept other k m (hsub other k ho) hm
      · exact fun other k ho => h.liveNamed other k (hsub other k ho)
      · intro j a hj ha
        refine (h.calls j a ha).transfer ?_ ?_ fun _ _ hm => hm
        · intro har haq had
          have hne : a.cid ≠ cid := hg.other_root hc rfl rfl rfl hj ha har haq had
          rw [OrderedMap.get_delete, if_neg hne]
        · exact fun _ m hu other k ho => hu other k (hsub other k ho)
      · exact fun j hj => (mem_applied_transaction hj).imp_right And.left
  case h_3 => cases ht

theorem Sound.evictStep (h : Sound N s) (hg : Gated s) (l : Label) (ht : s.evictStep l = some t) :
    Sound N t := by
  unfold PinGate.evictStep at ht
  split at ht
  case h_1 =>
    split at ht
    case h_2 => cases ht
    case h_1 cid hc =>
      obtain rfl := Option.some_inj.mp ht
      split
      case isTrue => exact h.advance hc rfl rfl rfl rfl rfl rfl trivial rfl
      case isFalse hp =>
        refine h.advance hc rfl rfl rfl rfl rfl rfl ?_ rfl
        exact fun other k ho hm => hp ((h.accounts.isPinned_iff cid).mpr ⟨other, k, ho, hm⟩)
  case h_2 =>
    split at ht
    case h_2 => cases ht
    case h_1 cid hc =>
      obtain rfl := Option.some_inj.mp ht
      have hun : Uncovered C s.live cid.multihash := h.calls _ _ hc
      split
      case isTrue => exact h.advance hc rfl rfl rfl rfl rfl rfl hun rfl
      case isFalse => exact h.advance hc rfl rfl rfl rfl rfl rfl trivial rfl
  case h_3 =>
    split at ht
    case h_2 => cases ht
    case h_1 cid hc =>
      obtain rfl := Option.some_inj.mp ht
      have hun : Uncovered C s.live cid.multihash := h.calls _ _ hc
      refine h.update hc rfl rfl h.accounts ?_ h.liveNamed trivial ?_ (fun _ hj => Or.inl hj) ?_
      · intro other k m ho hm
        refine (OrderedSet.mem_delete _ _ _).mpr ⟨h.kept other k m ho hm, ?_⟩
        rintro rfl
        exact hun other k ho hm
      · intro j a _ ha
        refine (h.calls j a ha).transfer (fun _ _ _ => rfl) (fun _ _ hu => hu) fun hw => ?_
        exact (hg.apart ha hw hc rfl).elim
      · intro hi
        cases h.applied _ _ hc hi
  case h_4 =>
    split at ht
    case h_3 => cases ht
    case h_1 cid hc =>
      obtain rfl := Option.some_inj.mp ht
      exact h.advance hc rfl rfl rfl rfl rfl rfl trivial rfl
    case h_2 cid hc =>
      obtain rfl := Option.some_inj.mp ht
      exact h.advance hc rfl rfl rfl rfl rfl rfl trivial rfl
  case h_5 => cases ht

theorem Sound.put (h : Sound N s) (m : Multihash) : Sound N { s with stored := s.stored.add m } where
  accounts := h.accounts
  kept := fun cid kind x hk hx => (OrderedSet.mem_add _ _ _).mpr (Or.inr (h.kept cid kind x hk hx))
  liveNamed := h.liveNamed
  named := h.named
  calls := fun j a ha => (h.calls j a ha).transfer (fun _ _ _ => rfl) (fun _ _ hu => hu)
    fun _ _ hx => (OrderedSet.mem_add _ _ _).mpr (Or.inr hx)
  applied := h.applied
  issued := h.issued

/-- Calls name CIDs in use. -/
def Named (N : Naming C) (_ : PinGate) : Label → Prop
  | .pin cid _ => cid ∈ N.cids
  | .unpin cid => cid ∈ N.cids
  | .evict cid => cid ∈ N.cids
  | _ => True

/-- Besides, no transaction throws inside a commit batch. -/
def Unthrown (N : Naming C) (limit : Option ℕ) (s : PinGate) (l : Label) : Prop :=
  Named N s l ∧ ∀ i, l = .commit i false → limit = none

theorem Sound.step (h : Sound N s) (hg : Gated s) {limit : Option ℕ} {l : Label} (hl : Unthrown N limit s l)
    (ht : s.step C limit l = some t) : Sound N t := by
  cases l with
  | pin cid recursive =>
    obtain rfl := Option.some_inj.mp ht
    exact h.append rfl rfl rfl rfl rfl hl.1 trivial
  | unpin cid =>
    obtain rfl := Option.some_inj.mp ht
    exact h.append rfl rfl rfl rfl rfl hl.1 trivial
  | evict cid =>
    obtain rfl := Option.some_inj.mp ht
    exact h.append rfl rfl rfl rfl rfl hl.1 trivial
  | start i => exact h.start ht
  | gate i => exact h.gate ht
  | visit i => exact h.visit ht
  | visitFailed i => exact h.visitFailed ht
  | commit i ok =>
    refine h.commit hg ?_ ht
    rintro rfl
    exact hl.2 i rfl
  | leave i => exact h.leave ht
  | check i => exact h.evictStep hg (.check i) ht
  | lookup i => exact h.evictStep hg (.lookup i) ht
  | remove i => exact h.evictStep hg (.remove i) ht
  | evictFailed i => exact h.evictStep hg (.evictFailed i) ht
  | put m =>
    obtain rfl := Option.some_inj.mp ht
    exact h.put m
  | flush =>
    obtain rfl := Option.some_inj.mp ht
    exact ⟨h.accounts, h.kept, h.liveNamed, h.named, h.calls, h.applied, h.issued⟩

/-- The tables, the pins and the store are as they were. -/
structure SameShared (s t : PinGate) : Prop where
  tables : t.tables = s.tables
  live : t.live = s.live
  stored : t.stored = s.stored
  applied : t.applied = s.applied

theorem start_sameShared (ht : s.start i = some t) : SameShared s t := by
  unfold PinGate.start at ht
  split at ht
  · split at ht
    · simp only at ht
      split at ht <;> obtain rfl := Option.some_inj.mp ht <;> exact ⟨rfl, rfl, rfl, rfl⟩
    · cases ht
  · split at ht
    · split at ht <;> obtain rfl := Option.some_inj.mp ht <;> exact ⟨rfl, rfl, rfl, rfl⟩
    · cases ht
  · cases ht

theorem gate_sameShared (ht : s.gate i = some t) : SameShared s t := by
  unfold PinGate.gate at ht
  split at ht
  · split at ht
    · obtain rfl := Option.some_inj.mp ht
      exact ⟨rfl, rfl, rfl, rfl⟩
    · split at ht
      · cases ht
      · obtain rfl := Option.some_inj.mp ht
        exact ⟨rfl, rfl, rfl, rfl⟩
  · split at ht
    · split at ht <;> obtain rfl := Option.some_inj.mp ht <;> exact ⟨rfl, rfl, rfl, rfl⟩
    · split at ht
      · cases ht
      · obtain rfl := Option.some_inj.mp ht
        exact ⟨rfl, rfl, rfl, rfl⟩
  · cases ht

theorem visit_sameShared (ht : s.visit C i = some t) : SameShared s t := by
  unfold PinGate.visit at ht
  split at ht
  · obtain ⟨r, -, rfl⟩ := Option.map_eq_some_iff.mp ht
    cases r <;> exact ⟨rfl, rfl, rfl, rfl⟩
  · obtain ⟨r, -, rfl⟩ := Option.map_eq_some_iff.mp ht
    cases r <;> exact ⟨rfl, rfl, rfl, rfl⟩
  · cases ht

theorem visitFailed_sameShared (ht : s.visitFailed i = some t) : SameShared s t := by
  unfold PinGate.visitFailed at ht
  split at ht
  · obtain rfl := Option.some_inj.mp ht
    exact ⟨rfl, rfl, rfl, rfl⟩
  · obtain rfl := Option.some_inj.mp ht
    exact ⟨rfl, rfl, rfl, rfl⟩
  · cases ht

theorem leave_sameShared (ht : s.leave i = some t) : SameShared s t := by
  unfold PinGate.leave at ht
  split at ht
  · obtain rfl := Option.some_inj.mp ht
    simp only [leaveWalk]
    split
    · split
      · exact ⟨rfl, rfl, rfl, rfl⟩
      · split <;> exact ⟨rfl, rfl, rfl, rfl⟩
    · exact ⟨rfl, rfl, rfl, rfl⟩
  · obtain rfl := Option.some_inj.mp ht
    exact ⟨rfl, rfl, rfl, rfl⟩
  · cases ht

theorem evictStep_shared {l : Label} (ht : s.evictStep l = some t) :
    SameShared s t ∨ (t.tables = s.tables ∧ t.applied = s.applied ∧ ∃ (i : ℕ) (cid : Cid),
      s.calls[i]? = some (.evict cid .removing) ∧ t.stored = s.stored.delete cid.multihash) := by
  unfold PinGate.evictStep at ht
  split at ht
  case h_3 j =>
    split at ht
    case h_2 => cases ht
    case h_1 cid hc =>
      obtain rfl := Option.some_inj.mp ht
      exact Or.inr ⟨rfl, rfl, j, cid, hc, rfl⟩
  all_goals
    try split at ht
    all_goals cases ht <;> exact Or.inl ⟨rfl, rfl, rfl, rfl⟩

/-- A transaction that is applied is logged; one that throws alone changes nothing. -/
theorem commit_shared {limit : Option ℕ} {ok : Bool} (hok : ok = false → limit = none)
    (ht : s.commit limit i ok = some t) :
    t.stored = s.stored ∧ (t.tables = s.tables ∨ t.applied = s.applied ++ [i]) := by
  unfold PinGate.commit at ht
  split at ht
  case h_3 => cases ht
  all_goals
    obtain rfl := Option.some_inj.mp ht
    refine ⟨(transaction_frame ..).2.2.2, ?_⟩
    cases ok with
    | false =>
      obtain rfl := hok rfl
      exact Or.inl rfl
    | true => cases limit <;> exact Or.inr rfl

/-- Only a transaction changes the tables, and only the removal of an eviction takes a block out
of the store. -/
theorem step_shared {limit : Option ℕ} {l : Label} (hl : Unthrown N limit s l)
    (ht : s.step C limit l = some t) :
    (t.tables = s.tables ∨ ∃ i, t.applied = s.applied ++ [i]) ∧
      ((∀ m ∈ s.stored, m ∈ t.stored) ∨ ∃ (i : ℕ) (cid : Cid),
        s.calls[i]? = some (.evict cid .removing) ∧ t.stored = s.stored.delete cid.multihash) := by
  have same : SameShared s t → (t.tables = s.tables ∨ ∃ i, t.applied = s.applied ++ [i]) ∧
      ((∀ m ∈ s.stored, m ∈ t.stored) ∨ ∃ (i : ℕ) (cid : Cid),
        s.calls[i]? = some (.evict cid .removing) ∧ t.stored = s.stored.delete cid.multihash) :=
    fun h => ⟨Or.inl h.tables, Or.inl fun m hm => h.stored ▸ hm⟩
  have evicts : ∀ k, s.evictStep k = some t → (t.tables = s.tables ∨ ∃ i, t.applied = s.applied ++ [i]) ∧
      ((∀ m ∈ s.stored, m ∈ t.stored) ∨ ∃ (i : ℕ) (cid : Cid),
        s.calls[i]? = some (.evict cid .removing) ∧ t.stored = s.stored.delete cid.multihash) := by
    intro k hk
    rcases evictStep_shared hk with h | ⟨htables, -, hremoved⟩
    · exact same h
    · exact ⟨Or.inl htables, Or.inr hremoved⟩
  cases l with
  | pin cid recursive =>
    obtain rfl := Option.some_inj.mp ht
    exact same ⟨rfl, rfl, rfl, rfl⟩
  | unpin cid =>
    obtain rfl := Option.some_inj.mp ht
    exact same ⟨rfl, rfl, rfl, rfl⟩
  | evict cid =>
    obtain rfl := Option.some_inj.mp ht
    exact same ⟨rfl, rfl, rfl, rfl⟩
  | start i => exact same (start_sameShared ht)
  | gate i => exact same (gate_sameShared ht)
  | visit i => exact same (visit_sameShared ht)
  | visitFailed i => exact same (visitFailed_sameShared ht)
  | commit i ok =>
    obtain ⟨hstored, htables⟩ := commit_shared (fun hok => hl.2 i (hok ▸ rfl)) ht
    exact ⟨htables.imp_right fun h => ⟨i, h⟩, Or.inl fun m hm => hstored ▸ hm⟩
  | leave i => exact same (leave_sameShared ht)
  | check i => exact evicts (.check i) ht
  | lookup i => exact evicts (.lookup i) ht
  | remove i => exact evicts (.remove i) ht
  | evictFailed i => exact evicts (.evictFailed i) ht
  | put m =>
    obtain rfl := Option.some_inj.mp ht
    exact ⟨Or.inl rfl, Or.inl fun x hx => (OrderedSet.mem_add _ _ _).mpr (Or.inr hx)⟩
  | flush =>
    obtain rfl := Option.some_inj.mp ht
    exact same ⟨rfl, rfl, rfl, rfl⟩

/-- A call that is now done was moved by this step. -/
theorem moved_of_done {j : ℕ} {a b : PinCall} (hold : s.calls[j]? = some old) (ha : s.calls[i]? = some a)
    (hd : a.isDone = false) (hb : (s.calls.set j new)[i]? = some b) (hbd : b.isDone = true) :
    a = old ∧ b = new := by
  rcases get_set_calls hold hb with ⟨rfl, rfl⟩ | ⟨-, hs⟩
  · exact ⟨Option.some_inj.mp (ha.symm.trans hold), rfl⟩
  · obtain rfl := Option.some_inj.mp (ha.symm.trans hs)
    simp [hd] at hbd

/-- A pin is fulfilled at once when its root is pinned already, or when it leaves the gate. -/
theorem fulfilled_cases {limit : Option ℕ} {l : Label} (ht : s.step C limit l = some t) {a : PinCall}
    (ha : s.calls[i]? = some a) (hd : a.isDone = false) {cid : Cid} {recursive : Bool}
    (hb : t.calls[i]? = some (.pin cid recursive (.done true))) :
    (a = .pin cid recursive (.leaving true) ∨
      a = .pin cid recursive .queued ∧ ¬ Fresh (s.tables.rootKind cid) recursive) ∧ t.live = s.live := by
  have unmoved : t.calls = s.calls → False := by
    intro heq
    rw [heq, ha] at hb
    obtain rfl := Option.some_inj.mp hb
    cases hd
  have appended : ∀ {call : PinCall}, call.isDone = false → t.calls = s.calls ++ [call] → False := by
    intro call hc heq
    rw [heq, List.getElem?_append_left (List.getElem?_eq_some_iff.mp ha).1, ha] at hb
    obtain rfl := Option.some_inj.mp hb
    cases hd
  have elsewhere : ∀ {j : ℕ} {old new : PinCall}, s.calls[j]? = some old → t.calls = s.calls.set j new →
      (∀ cid recursive, new ≠ .pin cid recursive (.done true)) → False := by
    intro j old new hc heq hn
    rw [heq] at hb
    exact hn cid recursive (moved_of_done hc ha hd hb rfl).2.symm
  have evicts : ∀ k, s.evictStep k = some t → False := by
    intro k hk
    unfold PinGate.evictStep at hk
    split at hk
    all_goals try split at hk
    all_goals cases hk
    all_goals exact elsewhere (by assumption) rfl (fun _ _ hp => by cases hp)
  cases l with
  | pin cid recursive =>
    obtain rfl := Option.some_inj.mp ht
    exact (appended rfl rfl).elim
  | unpin cid =>
    obtain rfl := Option.some_inj.mp ht
    exact (appended rfl rfl).elim
  | evict cid =>
    obtain rfl := Option.some_inj.mp ht
    exact (appended rfl rfl).elim
  | start j =>
    simp only [PinGate.step, PinGate.start] at ht
    split at ht
    case h_1 c r hc =>
      split at ht
      case isFalse => cases ht
      case isTrue =>
        split at ht <;> obtain rfl := Option.some_inj.mp ht
        case isTrue hearly =>
          obtain ⟨rfl, heq⟩ := moved_of_done hc ha hd hb rfl
          cases heq
          exact ⟨Or.inr ⟨rfl, fun hf => hf hearly⟩, rfl⟩
        case isFalse => exact (elsewhere hc rfl (fun _ _ hp => by cases hp)).elim
    case h_2 c hc =>
      split at ht
      case isFalse => cases ht
      case isTrue =>
        split at ht <;> obtain rfl := Option.some_inj.mp ht <;> exact (elsewhere hc rfl (fun _ _ hp => by cases hp)).elim
    case h_3 => cases ht
  | gate j =>
    simp only [PinGate.step, PinGate.gate] at ht
    split at ht
    case h_1 hc =>
      split at ht
      · obtain rfl := Option.some_inj.mp ht
        exact (elsewhere hc rfl (fun _ _ hp => by cases hp)).elim
      · split at ht
        · cases ht
        · obtain rfl := Option.some_inj.mp ht
          exact (elsewhere hc rfl (fun _ _ hp => by cases hp)).elim
    case h_2 hc =>
      split at ht
      · split at ht <;> obtain rfl := Option.some_inj.mp ht <;> exact (elsewhere hc rfl (fun _ _ hp => by cases hp)).elim
      · split at ht
        · cases ht
        · obtain rfl := Option.some_inj.mp ht
          exact (elsewhere hc rfl (fun _ _ hp => by cases hp)).elim
    case h_3 => cases ht
  | visit j =>
    simp only [PinGate.step, PinGate.visit] at ht
    split at ht
    case h_1 hc =>
      obtain ⟨r, -, rfl⟩ := Option.map_eq_some_iff.mp ht
      cases r <;> exact (elsewhere hc rfl (fun _ _ hp => by cases hp)).elim
    case h_2 hc =>
      obtain ⟨r, -, rfl⟩ := Option.map_eq_some_iff.mp ht
      cases r <;> exact (elsewhere hc rfl (fun _ _ hp => by cases hp)).elim
    case h_3 => cases ht
  | visitFailed j =>
    simp only [PinGate.step, PinGate.visitFailed] at ht
    split at ht
    case h_1 hc =>
      obtain rfl := Option.some_inj.mp ht
      exact (elsewhere hc rfl (fun _ _ hp => by cases hp)).elim
    case h_2 hc =>
      obtain rfl := Option.some_inj.mp ht
      exact (elsewhere hc rfl (fun _ _ hp => by cases hp)).elim
    case h_3 => cases ht
  | commit j ok =>
    simp only [PinGate.step, PinGate.commit] at ht
    split at ht
    case h_1 hc =>
      obtain rfl := Option.some_inj.mp ht
      exact (elsewhere hc (congrArg (List.set · j _) (transaction_frame ..).1) (fun _ _ hp => by cases hp)).elim
    case h_2 hc =>
      obtain rfl := Option.some_inj.mp ht
      exact (elsewhere hc (congrArg (List.set · j _) (transaction_frame ..).1) (fun _ _ hp => by cases hp)).elim
    case h_3 => cases ht
  | leave j =>
    refine ⟨?_, (leave_sameShared ht).live⟩
    simp only [PinGate.step, PinGate.leave] at ht
    split at ht
    case h_1 c r f hc =>
      obtain rfl := Option.some_inj.mp ht
      -- waking an eviction moves no pin
      have hset : (s.calls.set j (.pin c r (.done f)))[i]? = some (.pin cid recursive (.done true)) := by
        simp only [leaveWalk] at hb
        split at hb
        case isFalse => exact hb
        case isTrue =>
          split at hb
          case h_1 => exact hb
          case h_2 e _ =>
            split at hb
            case h_2 => exact hb
            case h_1 hw =>
              rcases get_set_calls hw hb with ⟨-, hne⟩ | ⟨-, hb⟩
              · cases hne
              · exact hb
      obtain ⟨rfl, heq⟩ := moved_of_done hc ha hd hset rfl
      cases heq
      exact Or.inl rfl
    case h_2 c hc =>
      obtain rfl := Option.some_inj.mp ht
      exact (elsewhere hc rfl (fun _ _ hp => by cases hp)).elim
    case h_3 => cases ht
  | check j => exact (evicts (.check j) ht).elim
  | lookup j => exact (evicts (.lookup j) ht).elim
  | remove j => exact (evicts (.remove j) ht).elim
  | evictFailed j => exact (evicts (.evictFailed j) ht).elim
  | put m =>
    obtain rfl := Option.some_inj.mp ht
    exact (unmoved rfl).elim
  | flush =>
    obtain rfl := Option.some_inj.mp ht
    exact (unmoved rfl).elim

end Steps

/-- The gate does its work in this state: a block leaves the store only while no live pin covers
it and no walk could have counted it; a pin is live and its blocks are stored when its call is
fulfilled; one eviction at a time is in the gate, and none at work beside a walk; and a call that
rejects has not applied its transaction, which alone changes a count or a root. -/
structure Safe {C : Contents} (N : Naming C) (limit : Option ℕ) (s : PinGate) : Prop where
  removal : ∀ l t m, Unthrown N limit s l → s.step C limit l = some t → m ∈ s.stored → m ∉ t.stored →
    Uncovered C s.live m ∧ ∀ (i : ℕ) (a : PinCall), s.calls[i]? = some a → a.isWalking = false
  fulfilled : ∀ l t (i : ℕ) (a : PinCall) cid recursive, Unthrown N limit s l → s.step C limit l = some t →
    s.calls[i]? = some a → a.isDone = false → t.calls[i]? = some (.pin cid recursive (.done true)) →
    Holds t.live cid recursive ∧ ∀ m, C.covers cid recursive m = true → m ∈ t.stored
  kept : ∀ cid kind m, s.live.get cid = some kind → C.covers cid kind m = true → m ∈ s.stored
  single : ∀ (i j : ℕ) (a b : PinCall), s.calls[i]? = some a → s.calls[j]? = some b →
    a.isEvicting = true → b.isEvicting = true → i = j
  apart : ∀ (i j : ℕ) (a b : PinCall), s.calls[i]? = some a → s.calls[j]? = some b →
    a.isWalking = true → b.runsEviction = false
  rejected : ∀ (i : ℕ) (a : PinCall), s.calls[i]? = some a → a.isRejected = true → i ∉ s.applied
  unchanged : ∀ l t, Unthrown N limit s l → s.step C limit l = some t → t.tables ≠ s.tables →
    ∃ i, t.applied = s.applied ++ [i]
  /-- A transaction that throws in a batch takes the tables back to where the batch began. -/
  thrown : ∀ n i t, limit = some n → s.step C limit (.commit i false) = some t →
    t.tables = (s.batch.map OpenBatch.tables).getD s.tables

theorem covers_of_holds {C : Contents} {cid : Cid} {recursive kind : Bool} (h : recursive = true → kind = true)
    {m : Multihash} (hm : C.covers cid recursive m = true) : C.covers cid kind m = true := by
  cases recursive with
  | true => exact h rfl ▸ hm
  | false =>
    obtain rfl := (Contents.covers_direct cid m).mp hm
    exact Contents.covers_iff.mpr ⟨cid, .refl, rfl⟩

theorem Sound.safe {C : Contents} {N : Naming C} {limit : Option ℕ} {s : PinGate} (h : Sound N s) (hg : Gated s) :
    Safe N limit s where
  removal := by
    intro l t m hl ht hm hgone
    rcases (step_shared hl ht).2 with hkeep | ⟨i, cid, hc, hstored⟩
    · exact absurd (hkeep m hm) hgone
    · have heq : m = cid.multihash := by
        by_contra hne
        exact hgone (hstored ▸ (OrderedSet.mem_delete _ _ _).mpr ⟨hm, hne⟩)
      subst heq
      refine ⟨h.calls i _ hc, fun j a ha => ?_⟩
      by_contra hw
      exact hg.apart ha (by simpa using hw) hc rfl
  fulfilled := by
    intro l t i a cid recursive hl ht ha hd hb
    have ht' : Sound N t := h.step hg hl ht
    obtain ⟨hcases, hlive⟩ := fulfilled_cases ht ha hd hb
    have hholds : Holds t.live cid recursive := by
      rw [hlive]
      rcases hcases with rfl | ⟨rfl, hf⟩
      · exact h.calls i _ ha
      · have hcid : cid ∈ N.cids := h.named i _ ha
        rw [h.accounts.rootKind_eq (h.unaliased hcid), Fresh, not_not] at hf
        rcases hf with hk | ⟨hk, hr⟩
        · exact ⟨true, hk, fun _ => rfl⟩
        · exact ⟨false, hk, fun htrue => by simp [htrue] at hr⟩
    obtain ⟨kind, hk, hr⟩ := hholds
    exact ⟨⟨kind, hk, hr⟩, fun m hm => ht'.kept cid kind m hk (covers_of_holds hr hm)⟩
  kept := h.kept
  single := by
    intro i j a b ha hb hea heb
    exact Option.some_inj.mp ((hg.holder i a ha hea).symm.trans (hg.holder j b hb heb))
  apart := by
    intro i j a b ha hb hw
    by_contra hr
    exact hg.apart ha hw hb (by simpa using hr)
  rejected := by
    intro i a ha hr hi
    have hf := h.applied i a ha hi
    unfold PinCall.isRejected at hr
    split at hr
    all_goals first
      | cases hf
      | cases hr
  unchanged := fun l t hl ht hne => (step_shared hl ht).1.resolve_left hne
  thrown := by
    rintro n i t rfl ht
    have hback : ∀ tables live, (s.transaction (some n) i false tables live).tables =
        (s.batch.map OpenBatch.tables).getD s.tables := by
      intro tables live
      unfold transaction
      cases s.batch <;> rfl
    simp only [PinGate.step, PinGate.commit] at ht
    split at ht
    case h_1 =>
      obtain rfl := Option.some_inj.mp ht
      rw [setCall, hback]
    case h_2 =>
      obtain rfl := Option.some_inj.mp ht
      rw [setCall, hback]
    case h_3 => cases ht

/-- In every interleaving of pins, unpins and evictions on CIDs that name each multihash once, in
which no transaction throws inside a commit batch, the eviction gate is safe. -/
theorem eviction_gate {C : Contents} (N : Naming C) (limit : Option ℕ) (stored : OrderedSet Multihash)
    {s : PinGate} (h : Run (step C limit) (· = create stored) (Unthrown N limit) s) : Safe N limit s := by
  have hs : Gated s ∧ Sound N s := by
    refine h.invariant (I := fun s => Gated s ∧ Sound N s) ?_
      fun s l t hs hl ht => ⟨hs.1.step ht, hs.2.step hs.1 hl ht⟩
    rintro _ rfl
    refine ⟨⟨?_, rfl, ?_, ?_⟩, ⟨.empty, ?_, ?_, ?_, ?_, ?_, ?_⟩⟩ <;> simp [create]
  exact hs.2.safe hs.1

namespace Sample

def first : Cid := .v1 rawCode [0]
def second : Cid := .v1 rawCode [1]

def contents : Contents := ⟨fun _ => [], ⟨fun _ => .ok [], fun _ => .ok []⟩⟩

/-- Two raw blocks, each with one name. -/
def naming : Naming contents where
  cids := {first, second}
  injOn := by
    rintro a (rfl | rfl) b (rfl | rfl) h
    · rfl
    · cases h
    · cases h
    · rfl
  closed := by
    rintro recursive a b ha ⟨links, hl, hb⟩
    have hnil : contents.links recursive a = .ok [] := by
      rcases ha with rfl | rfl <;> cases recursive <;> rfl
    obtain rfl := Except.ok.inj (hnil.symm.trans hl)
    cases hb

def stored : OrderedSet Multihash := ⟨[[0], [1]], by decide⟩

/-- The first block is pinned, as call 0. -/
def pinFirst : List Label := [.pin first true, .start 0, .gate 0, .visit 0, .commit 0 true, .leave 0]

def pinnedTables : PinTables := ⟨⟨[([0], 1)], by decide⟩, ⟨[([0], true)], by decide⟩⟩

def pinnedLive : LivePins := ⟨[(first, true)], by decide⟩

def pinned (batch : Option OpenBatch) (calls : List PinCall) (walking : ℕ) : PinGate :=
  ⟨pinnedTables, pinnedLive, stored, .pin first true (.done true) :: calls, walking, none, none, batch, [0]⟩

theorem run_pinFirst : runLabels (step contents none) (create stored) pinFirst = some (pinned none [] 0) := rfl

/-- An eviction of the second block, as call 1. -/
def evictSecond : List Label := [.evict second, .gate 1, .check 1, .lookup 1]

theorem run_evictSecond : runLabels (step contents none) (pinned none [] 0) evictSecond =
    some { pinned none [.evict second .removing] 0 with evicting := some 1 } := rfl

/-- The batch that the first pin opened, under a batcher that commits after eight runs. -/
def opened : OpenBatch := ⟨.empty, .empty, 1⟩

theorem run_batched : runLabels (step contents (some 8)) (create stored)
    (pinFirst ++ [.pin second true, .start 1, .gate 1, .visit 1]) =
      some (pinned (some opened) [.pin second true (.walking none ⟨[], ⟨[second], by decide⟩⟩)] 1) := rfl

/-- The second pin's transaction throws, and the first block is evicted. -/
def thrown : PinGate :=
  ⟨.empty, .empty, stored, [.pin first true (.done true), .pin second true (.leaving false)], 1, none, none, none, [0]⟩

theorem run_thrown : (pinned (some opened)
    [.pin second true (.walking none ⟨[], ⟨[second], by decide⟩⟩)] 1).step contents (some 8) (.commit 1 false) =
      some thrown := rfl

def evicted : PinGate :=
  ⟨.empty, .empty, ⟨[[1]], by decide⟩, [.pin first true (.done true), .pin second true (.done false),
    .evict first .leaving], 0, none, some 2, none, [0]⟩

theorem run_evicted : runLabels (step contents (some 8)) thrown
    [.leave 1, .evict first, .gate 2, .check 2, .lookup 2, .remove 2] = some evicted := rfl

theorem named_labels {labels : List Label} (h : ∀ l ∈ labels, ∀ cid recursive,
    (l = .pin cid recursive ∨ l = .unpin cid ∨ l = .evict cid) → cid = first ∨ cid = second) :
    ∀ l ∈ labels, ∀ s, Named naming s l := by
  intro l hl s
  cases l with
  | pin cid recursive => exact h _ hl cid recursive (Or.inl rfl)
  | unpin cid => exact h _ hl cid true (Or.inr (Or.inl rfl))
  | evict cid => exact h _ hl cid true (Or.inr (Or.inr rfl))
  | _ => trivial

end Sample

/-- A pin of one block and an eviction of another, about to remove it. -/
theorem eviction_gate_two :
    ∃ s, Run (step Sample.contents none) (· = create Sample.stored) (Unthrown Sample.naming none) s ∧
      s.calls[1]? = some (.evict Sample.second .removing) ∧ Safe Sample.naming none s := by
  have hquiet : ∀ labels : List Label, (∀ l ∈ labels, ∀ s, Named Sample.naming s l) →
      ∀ l ∈ labels, ∀ s, Unthrown Sample.naming none s l :=
    fun labels h l hl s => ⟨h l hl s, fun _ _ => rfl⟩
  have h1 : Run (step Sample.contents none) (· = create Sample.stored) (Unthrown Sample.naming none) _ :=
    Run.of_runLabels (.start rfl) (hquiet _ (Sample.named_labels (by simp [Sample.pinFirst]))) Sample.run_pinFirst
  have h2 := Run.of_runLabels h1 (hquiet _ (Sample.named_labels (by simp [Sample.evictSecond]))) Sample.run_evictSecond
  exact ⟨_, h2, rfl, eviction_gate Sample.naming none Sample.stored h2⟩

/-- Under a commit batcher a pin that rejects may change another's count: its transaction throws
and the open batch is rolled back, with the fulfilled pin of the first block in it. The block is
then evicted. -/
theorem eviction_gate_thrown :
    ∃ s t u, Run (step Sample.contents (some 8)) (· = create Sample.stored) (Named Sample.naming) s ∧
      s.step Sample.contents (some 8) (.commit 1 false) = some t ∧
      t.calls[1]? = some (.pin Sample.second true (.leaving false)) ∧
      s.tables.blockPins.get [0] = some 1 ∧ t.tables.blockPins.get [0] = none ∧
      Run (step Sample.contents (some 8)) (· = create Sample.stored) (Named Sample.naming) u ∧
      u.calls[0]? = some (.pin Sample.first true (.done true)) ∧ [0] ∉ u.stored := by
  have h1 : Run (step Sample.contents (some 8)) (· = create Sample.stored) (Named Sample.naming) _ :=
    Run.of_runLabels (.start rfl) (Sample.named_labels (by simp [Sample.pinFirst])) Sample.run_batched
  have h2 : Run (step Sample.contents (some 8)) (· = create Sample.stored) (Named Sample.naming) _ :=
    .next (.commit 1 false) h1 trivial Sample.run_thrown
  have h3 := Run.of_runLabels h2 (Sample.named_labels (by simp)) Sample.run_evicted
  exact ⟨_, _, _, h1, Sample.run_thrown, rfl, rfl, rfl, h3, rfl, by decide⟩

end PinGate

end RecordNode
