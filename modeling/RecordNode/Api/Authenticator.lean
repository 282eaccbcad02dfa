import RecordNode.Api.TokenStore
import RecordNode.Encoding.PlainEnvironment

/-! # The token authenticator

Calls that check a token against the store share one cache, keyed on the file's
identity. A call reads the key, takes the cached hashes if they are under that key,
and else reads the file and caches what it read under the key it saw first. Reads of
the key and of the file and the code behind each are steps of their own, and another
call or a rename may come between any two of them. The store is the list of its
versions, the current one last. -/

namespace RecordNode

open Foundation

abbrev FileKey := String

/-- The store at one time: its key and entries, or no file. -/
structure StoreVersion where
  file : Option (FileKey × List AccessToken)

namespace StoreVersion

/-- `none` stands for the key of a missing file. -/
def key (v : StoreVersion) : Option FileKey := v.file.map Prod.fst

/-- A missing store is an empty one. -/
def entries (v : StoreVersion) : List AccessToken := (v.file.map Prod.snd).getD []

end StoreVersion

/-- The active tokens' ids and hashes. -/
def activeHashes (entries : List AccessToken) : List (String × String) :=
  entries.filterMap fun entry => if entry.revokedAt.isNone then some (entry.id, entry.tokenSha256) else none

inductive AuthRequest where
  | identify (token : String)
  | authenticate (token : Option String)
  /-- The timer of a watch. -/
  | poll

inductive AuthAnswer where
  | identified (id : Option String)
  | authenticated (ok : Bool)
  | polled
deriving DecidableEq

inductive AuthPhase where
  | calling
  | statted (key : Option FileKey)
  | reading (key : Option FileKey)
  | loaded (key : Option FileKey) (entries : List AccessToken)
  | answered (answer : AuthAnswer)
  /-- The store is unavailable. -/
  | threw

structure AuthCall where
  request : AuthRequest
  /-- The version that was current when the call began. -/
  begun : ℕ
  phase : AuthPhase
  /-- A read of the key or of the file failed in this call, for another reason than a missing file. -/
  faulted : Bool

structure Authenticator where
  versions : List StoreVersion
  cached : Option (Option FileKey × List (String × String))
  calls : ℕ → Option AuthCall

namespace Authenticator

inductive Label where
  /-- A command renames its store over, which gives the file a new key. -/
  | rename (key : FileKey) (entries : List AccessToken)
  | begin (i : ℕ) (request : AuthRequest)
  | stat (i : ℕ)
  | statFails (i : ℕ)
  | compare (i : ℕ)
  | read (i : ℕ)
  | readFails (i : ℕ)
  | store (i : ℕ)

section Step
variable (E : Environment)

def tokenHash (token : String) : String := bytesToHex (E.sha256 (utf8ToBytes token)).bytes

/-- Every active hash is compared; the last that matches names the token. -/
def identify (token : String) (hashes : List (String × String)) : Option String :=
  if token = "" then none
  else hashes.foldl (fun matched hash => if hash.2 = tokenHash E token then some hash.1 else matched) none

def answer (hashes : List (String × String)) : AuthRequest → AuthAnswer
  | .identify token => .identified (identify E token hashes)
  | .authenticate none => .authenticated false
  | .authenticate (some token) => .authenticated (identify E token hashes).isSome
  | .poll => .polled

def current (a : Authenticator) : StoreVersion := a.versions.getLastD ⟨none⟩

def put (a : Authenticator) (i : ℕ) (c : AuthCall) : Authenticator :=
  { a with calls := Function.update a.calls i (some c) }

/-- The code of `active_hashes` behind the read of the key. -/
def compareKey (a : Authenticator) (i : ℕ) (c : AuthCall) (key : Option FileKey) : Authenticator :=
  match a.cached with
  | some (cachedKey, hashes) =>
    if cachedKey = key then a.put i { c with phase := .answered (answer E hashes c.request) }
    else a.put i { c with phase := .reading key }
  | none => a.put i { c with phase := .reading key }

/-- The code of `active_hashes` behind the read of the file. -/
def storeHashes (a : Authenticator) (i : ℕ) (c : AuthCall) (key : Option FileKey) (entries : List AccessToken) :
    Authenticator :=
  { a.put i { c with phase := .answered (answer E (activeHashes entries) c.request) } with
    cached := some (key, activeHashes entries) }

def step (a : Authenticator) : Label → Option Authenticator
  | .rename key entries =>
    if a.versions.any fun v => v.key = some key then none
    else some { a with versions := a.versions ++ [⟨some (key, entries)⟩] }
  | .begin i request =>
    match a.calls i with
    | none => some (a.put i ⟨request, a.versions.length - 1, .calling, false⟩)
    | some _ => none
  | .stat i => (a.calls i).bind fun c =>
    match c.phase with
    | .calling => some (a.put i { c with phase := .statted a.current.key })
    | _ => none
  | .statFails i => (a.calls i).bind fun c =>
    match c.phase with
    | .calling => some (a.put i { c with phase := .threw, faulted := true })
    | _ => none
  | .compare i => (a.calls i).bind fun c =>
    match c.phase with
    | .statted key => some (a.compareKey E i c key)
    | _ => none
  | .read i => (a.calls i).bind fun c =>
    match c.phase with
    | .reading key => some (a.put i { c with phase := .loaded key a.current.entries })
    | _ => none
  | .readFails i => (a.calls i).bind fun c =>
    match c.phase with
    | .reading _ => some (a.put i { c with phase := .threw, faulted := true })
    | _ => none
  | .store i => (a.calls i).bind fun c =>
    match c.phase with
    | .loaded key entries => some (a.storeHashes E i c key entries)
    | _ => none

/-- An active entry of these has the token's hash; no token is the empty text. -/
def Active (token : String) (entries : List AccessToken) : Prop :=
  token ≠ "" ∧ ∃ entry ∈ entries, entry.revokedAt = none ∧ entry.tokenSha256 = tokenHash E token

end Step

/-- Some store, no call and nothing cached. -/
def Initial (a : Authenticator) : Prop := (∃ v, a.versions = [v]) ∧ a.cached = none ∧ ∀ i, a.calls i = none

end Authenticator

/-- The request presents this token. -/
def AuthRequest.Presents (token : String) : AuthRequest → Prop
  | .identify presented => presented = token
  | .authenticate presented => presented = some token
  | .poll => False

def AuthAnswer.accepts : AuthAnswer → Bool
  | .identified id => id.isSome
  | .authenticated ok => ok
  | .polled => false

namespace Authenticator

variable {E : Environment} {a b : Authenticator}

/-! ## Answers -/

theorem foldl_match_isSome (p : String → Prop) [DecidablePred p] (hashes : List (String × String)) (matched : Option String) :
    (hashes.foldl (fun matched hash => if p hash.2 then some hash.1 else matched) matched).isSome = true ↔
      matched.isSome = true ∨ ∃ hash ∈ hashes, p hash.2 := by
  induction hashes generalizing matched with
  | nil => simp
  | cons hash rest ih =>
    rw [List.foldl_cons, ih]
    by_cases hp : p hash.2 <;> simp [hp]

theorem mem_activeHashes {entries : List AccessToken} {hash : String × String} :
    hash ∈ activeHashes entries ↔
      ∃ entry ∈ entries, entry.revokedAt = none ∧ entry.id = hash.1 ∧ entry.tokenSha256 = hash.2 := by
  simp only [activeHashes, List.mem_filterMap, Option.ite_none_right_eq_some, Option.some_inj, Prod.ext_iff,
    Option.isNone_iff_eq_none]

theorem identify_isSome_iff (token : String) (entries : List AccessToken) :
    (identify E token (activeHashes entries)).isSome = true ↔ Active E token entries := by
  unfold identify
  split
  case isTrue ht => simp [Active, ht]
  case isFalse ht =>
    rw [foldl_match_isSome fun hash => hash = tokenHash E token]
    simp only [Option.isSome_none, Bool.false_eq_true, false_or, Active, ne_eq, ht, not_false_iff, true_and]
    constructor
    · rintro ⟨hash, hm, hh⟩
      obtain ⟨entry, he, hr, -, hsha⟩ := mem_activeHashes.mp hm
      exact ⟨entry, he, hr, hsha.trans hh⟩
    · rintro ⟨entry, he, hr, hsha⟩
      exact ⟨(entry.id, entry.tokenSha256), mem_activeHashes.mpr ⟨entry, he, hr, rfl, rfl⟩, hsha⟩

theorem answer_accepts_iff {request : AuthRequest} {token : String} (h : request.Presents token)
    (entries : List AccessToken) :
    (answer E (activeHashes entries) request).accepts = true ↔ Active E token entries := by
  cases request with
  | identify presented =>
    obtain rfl : presented = token := h
    exact identify_isSome_iff presented entries
  | authenticate presented =>
    obtain rfl : presented = some token := h
    exact identify_isSome_iff token entries
  | poll => exact absurd h not_false

/-! ## The cache is never older than its key -/

/-- Some version from `least` on has the key. -/
def Seen (versions : List StoreVersion) (least : ℕ) (key : Option FileKey) (m : ℕ) : Prop :=
  least ≤ m ∧ (versions[m]?).map StoreVersion.key = some key

/-- Some version from `least` on has these active hashes. -/
def Holds (versions : List StoreVersion) (least : ℕ) (hashes : List (String × String)) : Prop :=
  ∃ n, least ≤ n ∧ (versions[n]?).map (fun v => activeHashes v.entries) = some hashes

variable (E) in
/-- A call has seen only versions since it began, the entries never older than the key. -/
def Fits (versions : List StoreVersion) (c : AuthCall) : Prop :=
  match c.phase with
  | .calling => c.faulted = false
  | .statted key | .reading key => c.faulted = false ∧ ∃ m, Seen versions c.begun key m
  | .loaded key entries =>
    c.faulted = false ∧ ∃ m, Seen versions c.begun key m ∧ Holds versions m (activeHashes entries)
  | .answered given =>
    c.faulted = false ∧ ∃ hashes, Holds versions c.begun hashes ∧ given = answer E hashes c.request
  | .threw => True

variable (E) in
structure Fresh (a : Authenticator) : Prop where
  nonempty : a.versions ≠ []
  distinct : ∀ key m n, Seen a.versions 0 key m → Seen a.versions 0 key n → m = n
  cached : ∀ key hashes, a.cached = some (key, hashes) → ∃ m, Seen a.versions 0 key m ∧ Holds a.versions m hashes
  calls : ∀ i c, a.calls i = some c → c.begun < a.versions.length ∧ Fits E a.versions c

theorem Seen.append {versions : List StoreVersion} {least m : ℕ} {key : Option FileKey}
    (h : Seen versions least key m) (v : StoreVersion) : Seen (versions ++ [v]) least key m := by
  obtain ⟨w, hw, hkey⟩ := Option.map_eq_some_iff.mp h.2
  have hm := (List.getElem?_eq_some_iff.mp hw).1
  exact ⟨h.1, by rw [List.getElem?_append_left hm, hw, Option.map_some, hkey]⟩

theorem Holds.append {versions : List StoreVersion} {least : ℕ} {hashes : List (String × String)}
    (h : Holds versions least hashes) (v : StoreVersion) : Holds (versions ++ [v]) least hashes := by
  obtain ⟨n, hn, hv⟩ := h
  obtain ⟨w, hw, hh⟩ := Option.map_eq_some_iff.mp hv
  have hlt := (List.getElem?_eq_some_iff.mp hw).1
  exact ⟨n, hn, by rw [List.getElem?_append_left hlt, hw, Option.map_some, hh]⟩

theorem Holds.mono {versions : List StoreVersion} {least more : ℕ} {hashes : List (String × String)}
    (h : Holds versions more hashes) (hle : least ≤ more) : Holds versions least hashes := by
  obtain ⟨n, hn, hv⟩ := h
  exact ⟨n, hle.trans hn, hv⟩

theorem Fits.append {versions : List StoreVersion} {c : AuthCall} (h : Fits E versions c) (v : StoreVersion) :
    Fits E (versions ++ [v]) c := by
  obtain ⟨request, begun, phase, faulted⟩ := c
  cases phase with
  | calling => exact h
  | statted key | reading key =>
    obtain ⟨hf, m, hm⟩ := h
    exact ⟨hf, m, hm.append v⟩
  | loaded key entries =>
    obtain ⟨hf, m, hm, hh⟩ := h
    exact ⟨hf, m, hm.append v, hh.append v⟩
  | answered given =>
    obtain ⟨hf, hashes, hh, hg⟩ := h
    exact ⟨hf, hashes, hh.append v, hg⟩
  | threw => trivial

theorem current_eq (hne : a.versions ≠ []) : a.versions[a.versions.length - 1]? = some a.current := by
  rw [← List.getLast?_eq_getElem?, current, List.getLastD_eq_getLast?, List.getLast?_eq_getLast_of_ne_nil hne]
  rfl

theorem Fresh.put (k : Fresh E a) {i : ℕ} {c : AuthCall} (hb : c.begun < a.versions.length)
    (hc : Fits E a.versions c) : Fresh E (a.put i c) where
  nonempty := k.nonempty
  distinct := k.distinct
  cached := k.cached
  calls j d hd := by
    simp only [Authenticator.put, Function.update_apply] at hd
    split at hd
    · obtain rfl := Option.some_inj.mp hd
      exact ⟨hb, hc⟩
    · exact k.calls j d hd

theorem Fresh.seen_current (k : Fresh E a) {least : ℕ} (hl : least < a.versions.length) :
    Seen a.versions least a.current.key (a.versions.length - 1) :=
  ⟨by omega, by rw [current_eq k.nonempty, Option.map_some]⟩

theorem Fresh.rename (k : Fresh E a) {key : FileKey} (hkey : ∀ v ∈ a.versions, v.key ≠ some key)
    (entries : List AccessToken) : Fresh E { a with versions := a.versions ++ [⟨some (key, entries)⟩] } where
  nonempty := by simp
  distinct := by
    -- A version with the new key is the new one; any other was there before.
    have hcase : ∀ other m, Seen (a.versions ++ [⟨some (key, entries)⟩]) 0 other m →
        (m = a.versions.length ∧ other = some key) ∨ (Seen a.versions 0 other m ∧ other ≠ some key) := by
      intro other m h
      obtain ⟨v, hv, hother⟩ := Option.map_eq_some_iff.mp h.2
      by_cases hm : m < a.versions.length
      · rw [List.getElem?_append_left hm] at hv
        have hmem := List.mem_of_getElem? hv
        exact Or.inr ⟨⟨h.1, by rw [hv, Option.map_some, hother]⟩, hother ▸ hkey v hmem⟩
      · have hlt := (List.getElem?_eq_some_iff.mp hv).1
        rw [List.length_append, List.length_singleton] at hlt
        obtain rfl : m = a.versions.length := by omega
        rw [List.getElem?_concat_length] at hv
        obtain rfl := Option.some_inj.mp hv
        exact Or.inl ⟨rfl, hother.symm⟩
    intro other m n hm hn
    rcases hcase other m hm with ⟨rfl, rfl⟩ | ⟨hm, hne⟩
    · rcases hcase _ n hn with ⟨rfl, -⟩ | ⟨-, hne⟩
      · rfl
      · exact absurd rfl hne
    · rcases hcase other n hn with ⟨-, rfl⟩ | ⟨hn, -⟩
      · exact absurd rfl hne
      · exact k.distinct other m n hm hn
  cached other hashes h := by
    obtain ⟨m, hm, hh⟩ := k.cached other hashes h
    exact ⟨m, hm.append _, hh.append _⟩
  calls i c h := by
    obtain ⟨hb, hc⟩ := k.calls i c h
    refine ⟨?_, hc.append _⟩
    rw [List.length_append]
    omega

/-- Under the key a call has seen, the cache holds a version since the call began: the key names one
version, and what is cached is no older. -/
theorem Fresh.cached_holds (k : Fresh E a) {key : Option FileKey} {hashes : List (String × String)} {least m : ℕ}
    (hc : a.cached = some (key, hashes)) (hm : Seen a.versions least key m) : Holds a.versions least hashes := by
  obtain ⟨n, hn, hh⟩ := k.cached key hashes hc
  obtain rfl := k.distinct key m n ⟨Nat.zero_le _, hm.2⟩ hn
  exact hh.mono hm.1

theorem step_fresh {l : Label} (k : Fresh E a) (h : step E a l = some b) : Fresh E b := by
  cases l with
  | rename key entries =>
    obtain ⟨hkey, ⟨⟩⟩ := Option.ite_none_left_eq_some.mp h
    refine k.rename (fun v hv he => hkey ?_) entries
    exact List.any_eq_true.mpr ⟨v, hv, by simpa using he⟩
  | begin i request =>
    simp only [step] at h
    split at h
    · obtain rfl := Option.some_inj.mp h
      have := List.length_pos_iff.mpr k.nonempty
      exact k.put (by simp only; omega) rfl
    · simp at h
  | stat i =>
    obtain ⟨⟨request, begun, phase, faulted⟩, hc, h⟩ := Option.bind_eq_some_iff.mp h
    obtain ⟨hb, hfits⟩ := k.calls i _ hc
    cases phase <;> simp only [reduceCtorEq] at h
    obtain rfl := Option.some_inj.mp h
    exact k.put hb ⟨hfits, _, k.seen_current hb⟩
  | statFails i =>
    obtain ⟨⟨request, begun, phase, faulted⟩, hc, h⟩ := Option.bind_eq_some_iff.mp h
    obtain ⟨hb, -⟩ := k.calls i _ hc
    cases phase <;> simp only [reduceCtorEq] at h
    obtain rfl := Option.some_inj.mp h
    exact k.put hb trivial
  | compare i =>
    obtain ⟨⟨request, begun, phase, faulted⟩, hc, h⟩ := Option.bind_eq_some_iff.mp h
    obtain ⟨hb, hfits⟩ := k.calls i _ hc
    cases phase <;> simp only [reduceCtorEq] at h
    obtain rfl := Option.some_inj.mp h
    obtain ⟨hf, m, hm⟩ := hfits
    unfold compareKey
    split
    · rename_i cachedKey hashes hcached
      split
      case isTrue hkey =>
        subst hkey
        exact k.put hb ⟨hf, hashes, k.cached_holds hcached hm, rfl⟩
      case isFalse => exact k.put hb ⟨hf, m, hm⟩
    · exact k.put hb ⟨hf, m, hm⟩
  | read i =>
    obtain ⟨⟨request, begun, phase, faulted⟩, hc, h⟩ := Option.bind_eq_some_iff.mp h
    obtain ⟨hb, hfits⟩ := k.calls i _ hc
    cases phase <;> simp only [reduceCtorEq] at h
    obtain rfl := Option.some_inj.mp h
    obtain ⟨hf, m, hm⟩ := hfits
    obtain ⟨v, hv, -⟩ := Option.map_eq_some_iff.mp hm.2
    have hlt := (List.getElem?_eq_some_iff.mp hv).1
    refine k.put hb ⟨hf, m, hm, a.versions.length - 1, by omega, ?_⟩
    rw [current_eq k.nonempty, Option.map_some]
  | readFails i =>
    obtain ⟨⟨request, begun, phase, faulted⟩, hc, h⟩ := Option.bind_eq_some_iff.mp h
    obtain ⟨hb, -⟩ := k.calls i _ hc
    cases phase <;> simp only [reduceCtorEq] at h
    obtain rfl := Option.some_inj.mp h
    exact k.put hb trivial
  | store i =>
    obtain ⟨⟨request, begun, phase, faulted⟩, hc, hb⟩ := Option.bind_eq_some_iff.mp h
    obtain ⟨hbegun, hfits⟩ := k.calls i _ hc
    cases phase <;> simp only [reduceCtorEq] at hb
    obtain rfl := Option.some_inj.mp hb
    rename_i key entries
    obtain ⟨hf, m, hm, hh⟩ := hfits
    have hanswered : Fits E a.versions ⟨request, begun, .answered (answer E (activeHashes entries) request), faulted⟩ :=
      ⟨hf, _, hh.mono hm.1, rfl⟩
    have hlt : begun < a.versions.length := hbegun
    have kput := k.put (i := i) (c := ⟨request, begun, _, faulted⟩) hlt hanswered
    refine { kput with cached := fun key hashes hcached => ?_ }
    obtain ⟨rfl, rfl⟩ := Prod.mk.inj (Option.some_inj.mp hcached)
    exact ⟨m, ⟨Nat.zero_le _, hm.2⟩, hh⟩

theorem run_fresh {allowed : Authenticator → Label → Prop} (h : Run (step E) Initial allowed a) : Fresh E a := by
  refine h.invariant ?_ fun _ _ _ k _ hs => step_fresh k hs
  rintro a ⟨⟨v, hv⟩, hcached, hcalls⟩
  refine ⟨by simp [hv], fun key m n hm hn => ?_, fun key hashes hc => ?_, fun i c hc => ?_⟩
  · obtain ⟨w, hw, -⟩ := Option.map_eq_some_iff.mp hm.2
    obtain ⟨x, hx, -⟩ := Option.map_eq_some_iff.mp hn.2
    have hm := (List.getElem?_eq_some_iff.mp hw).1
    have hn := (List.getElem?_eq_some_iff.mp hx).1
    rw [hv, List.length_singleton] at hm hn
    omega
  · simp [hcached] at hc
  · simp [hcalls i] at hc

/-- A call that has answered answers as some version of the store did that was current since it began. -/
theorem answered_from_version {i : ℕ} {c : AuthCall} {given : AuthAnswer} (k : Fresh E a) (hc : a.calls i = some c)
    (hp : c.phase = .answered given) :
    ∃ v ∈ a.versions.drop c.begun, given = answer E (activeHashes v.entries) c.request := by
  obtain ⟨-, hfits⟩ := k.calls i c hc
  simp only [Fits, hp] at hfits
  obtain ⟨-, hashes, ⟨n, hn, hmap⟩, hg⟩ := hfits
  obtain ⟨v, hv, rfl⟩ := Option.map_eq_some_iff.mp hmap
  refine ⟨v, List.mem_of_getElem? (i := n - c.begun) ?_, hg⟩
  rw [List.getElem?_drop, Nat.add_sub_cancel' hn, hv]

/-- In every state of every run: a call begun when a token was revoked for good does not accept it, a
call does not reject a token that is active all through it, and a call in which the store could not be
read throws. -/
theorem token_freshness {i : ℕ} {c : AuthCall} (h : Run (step E) Initial anyLabel a) (hc : a.calls i = some c) :
    (∀ token given revoked, c.request.Presents token → c.phase = .answered given → revoked ≤ c.begun →
        (∀ v ∈ a.versions.drop revoked, ¬ Active E token v.entries) → given.accepts = false) ∧
      (∀ token given, c.request.Presents token → c.phase = .answered given →
        (∀ v ∈ a.versions.drop c.begun, Active E token v.entries) → given.accepts = true) ∧
      (c.faulted = true → c.phase = .threw) := by
  have k := run_fresh h
  refine ⟨fun token given revoked hpresents hp hr hinactive => ?_, fun token given hpresents hp hactive => ?_,
    fun hf => ?_⟩
  · obtain ⟨v, hv, rfl⟩ := answered_from_version k hc hp
    have hdrop : v ∈ a.versions.drop revoked := (List.drop_sublist_drop_left a.versions hr).subset hv
    have hn := (answer_accepts_iff hpresents v.entries).not.mpr (hinactive v hdrop)
    simpa using hn
  · obtain ⟨v, hv, rfl⟩ := answered_from_version k hc hp
    exact (answer_accepts_iff hpresents v.entries).mpr (hactive v hv)
  · obtain ⟨-, hfits⟩ := k.calls i c hc
    unfold Fits at hfits
    split at hfits <;> simp_all

namespace Revoked

def entry (id token : String) (revokedAt : Option String) : AccessToken :=
  ⟨id, id, tokenHash plainEnvironment token, "2026-01-01", revokedAt⟩

/-- The phone's token, which is revoked, and the desk's, which is not. -/
def entries (revokedAt : Option String) : List AccessToken := [entry "phone" "secret" revokedAt, entry "desk" "other" none]

def before : Authenticator := ⟨[⟨some ("1:1:1", entries none)⟩], none, fun _ => none⟩

/-- A call reads the key, then the revocation is renamed over, and the call caches the new entries under
the old key. Two calls that present the tokens follow, one among the other, and a last one cannot read the key. -/
def labels : List Label :=
  [.begin 0 .poll, .stat 0, .rename "2:2:2" (entries (some "2026-01-02")), .compare 0, .read 0, .store 0,
    .begin 1 (.identify "secret"), .begin 2 (.authenticate (some "other")), .stat 1, .stat 2, .compare 1, .compare 2,
    .read 2, .read 1, .store 1, .store 2, .begin 3 (.identify "other"), .statFails 3]

def after : Authenticator := (runLabels (step plainEnvironment) before labels).getD before

def later : StoreVersion := ⟨some ("2:2:2", entries (some "2026-01-02"))⟩

theorem secret_inactive : ¬ Active plainEnvironment "secret" later.entries := by
  have hne : tokenHash plainEnvironment "other" ≠ tokenHash plainEnvironment "secret" := by decide +kernel
  rintro ⟨-, e, he, hactive, hhash⟩
  simp only [later, StoreVersion.entries, Option.map_some, Option.getD_some, entries, List.mem_cons, List.not_mem_nil,
    or_false] at he
  rcases he with rfl | rfl
  · cases hactive
  · exact hne hhash

theorem other_active : Active plainEnvironment "other" later.entries :=
  ⟨by decide, _, List.mem_cons_of_mem _ List.mem_cons_self, rfl, rfl⟩

end Revoked

open Revoked in
/-- The call with the revoked token looks past the cache and is not accepted, the one with the active token
beside it is, and the one that cannot read the key throws. -/
theorem token_freshness_beside : ∃ a : Authenticator, Run (step plainEnvironment) Initial anyLabel a ∧
    (∃ c given, a.calls 1 = some c ∧ c.phase = .answered given ∧ given.accepts = false) ∧
    (∃ c given, a.calls 2 = some c ∧ c.phase = .answered given ∧ given.accepts = true) ∧
    ∃ c, a.calls 3 = some c ∧ c.phase = .threw := by
  have hrun : Run (step plainEnvironment) Initial anyLabel after :=
    (Run.start ⟨⟨_, rfl⟩, rfl, fun _ => rfl⟩ : Run (step plainEnvironment) Initial anyLabel before).of_runLabels
      (fun _ _ _ => trivial) (show runLabels (step plainEnvironment) before labels = some after from rfl)
  have hlater : ∀ v ∈ after.versions.drop 1, v = later := fun v hv => List.mem_singleton.mp hv
  refine ⟨after, hrun, ?_, ?_, ?_⟩
  · obtain ⟨c, hc, hrequest, hbegun, given, hphase⟩ : ∃ c, after.calls 1 = some c ∧ c.request = .identify "secret" ∧
        c.begun = 1 ∧ ∃ given, c.phase = .answered given := ⟨_, rfl, rfl, rfl, _, rfl⟩
    exact ⟨c, given, hc, hphase, (token_freshness hrun hc).1 "secret" given 1 (hrequest ▸ rfl) hphase hbegun.ge
      fun v hv => hlater v hv ▸ secret_inactive⟩
  · obtain ⟨c, hc, hrequest, hbegun, given, hphase⟩ : ∃ c, after.calls 2 = some c ∧
        c.request = .authenticate (some "other") ∧ c.begun = 1 ∧ ∃ given, c.phase = .answered given :=
      ⟨_, rfl, rfl, rfl, _, rfl⟩
    exact ⟨c, given, hc, hphase, (token_freshness hrun hc).2.1 "other" given (hrequest ▸ rfl) hphase
      fun v hv => hlater v (hbegun ▸ hv) ▸ other_active⟩
  · obtain ⟨c, hc, hfaulted⟩ : ∃ c, after.calls 3 = some c ∧ c.faulted = true := ⟨_, rfl, rfl⟩
    exact ⟨c, hc, (token_freshness hrun hc).2.2 hfaulted⟩

end Authenticator

end RecordNode
