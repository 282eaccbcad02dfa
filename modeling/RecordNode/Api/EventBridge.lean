import RecordNode.Api.Authenticator

/-! # The event stream's clients

The remote listener checks a token before it admits a WebSocket client and once more
after, and checks every client again whenever the authenticator has cached a store
anew. A pass goes from client to client, one authenticator call at a time, and ends at
the first call that throws. An upgrade refused for its path, origin or subprotocol
comes to no check and is no step here. -/

namespace RecordNode

open Foundation

structure BridgeClient where
  token : Option String
  /-- Open, and not closing. -/
  isOpen : Bool
  /-- The call that checks the token once more, until its answer is taken. -/
  recheck : Option ℕ

/-- A pass over the clients: the one it checks, the call it waits for, and those to come. -/
structure RevalidationPass where
  client : ℕ
  call : ℕ
  rest : List ℕ

structure EventBridge where
  auth : Authenticator
  nextCall : ℕ
  /-- The upgrades whose check is made, by its call, with the token they offered. -/
  upgrades : ℕ → Option (Option String)
  /-- Every client ever admitted, under the call that admitted it. -/
  clients : ℕ → Option BridgeClient
  /-- The keys of `client_tokens`, in order. -/
  registered : List ℕ
  passes : ℕ → Option RevalidationPass
  nextPass : ℕ
  /-- The keys entries were cached under so far. -/
  storedKeys : List (Option FileKey)

namespace EventBridge

def create (v : StoreVersion) : EventBridge where
  auth := ⟨[v], none, fun _ => none⟩
  nextCall := 0
  upgrades _ := none
  clients _ := none
  registered := []
  passes _ := none
  nextPass := 0
  storedKeys := []

inductive Label where
  | rename (key : FileKey) (entries : List AccessToken)
  /-- A call of a route, or the poll of the watch. -/
  | request (request : AuthRequest)
  | upgrade (token : Option String)
  | stat (i : ℕ)
  | statFails (i : ℕ)
  | compare (i : ℕ)
  | read (i : ℕ)
  | readFails (i : ℕ)
  | store (i : ℕ)
  /-- The upgrade completes. -/
  | admits (i : ℕ)
  /-- The second check of a client has come back. -/
  | recheck (i : ℕ)
  /-- The call of a pass has come back. -/
  | advance (k : ℕ)
  /-- The client goes away. -/
  | leave (i : ℕ)

section Step
variable (E : Environment)

/-- A call begins, as the next one. -/
def begin (s : EventBridge) (request : AuthRequest) : EventBridge :=
  { s with
    auth := s.auth.put s.nextCall ⟨request, s.auth.versions.length - 1, .calling, false⟩
    nextCall := s.nextCall + 1 }

def setClient (s : EventBridge) (i : ℕ) (client : BridgeClient) : EventBridge :=
  { s with clients := Function.update s.clients i (some client) }

def setPass (s : EventBridge) (k : ℕ) (pass : Option RevalidationPass) : EventBridge :=
  { s with passes := Function.update s.passes k pass }

def tokenOf (s : EventBridge) (i : ℕ) : Option String := (s.clients i).bind BridgeClient.token

/-- The pass checks the next of these clients. -/
def checkNext (s : EventBridge) (k : ℕ) : List ℕ → EventBridge
  | [] => s.setPass k none
  | client :: rest => (s.begin (.authenticate (s.tokenOf client))).setPass k (some ⟨client, s.nextCall, rest⟩)

def revalidate (s : EventBridge) : EventBridge :=
  { s.checkNext s.nextPass s.registered with nextPass := s.nextPass + 1 }

/-- The client is closed, and is open no longer. -/
def close (s : EventBridge) (i : ℕ) : EventBridge :=
  match s.clients i with
  | some client => s.setClient i { client with isOpen := false }
  | none => s

/-- A step of the authenticator alone. -/
def authStep (s : EventBridge) (l : Authenticator.Label) : Option EventBridge :=
  (s.auth.step E l).map fun auth => { s with auth := auth }

def step (s : EventBridge) : Label → Option EventBridge
  | .rename key entries => s.authStep E (.rename key entries)
  | .request request => some (s.begin request)
  | .upgrade token => some { s.begin (.authenticate token) with
      upgrades := Function.update s.upgrades s.nextCall (some token) }
  | .stat i => s.authStep E (.stat i)
  | .statFails i => s.authStep E (.statFails i)
  | .compare i => s.authStep E (.compare i)
  | .read i => s.authStep E (.read i)
  | .readFails i => s.authStep E (.readFails i)
  | .store i => (s.auth.calls i).bind fun c =>
    match c.phase with
    | .loaded key entries =>
      let stored := { s with auth := s.auth.storeHashes E i c key entries, storedKeys := s.storedKeys ++ [key] }
      -- The first store read tells the listeners nothing.
      some (if s.auth.cached.isSome then stored.revalidate else stored)
    | _ => none
  | .admits i =>
    match s.upgrades i, s.auth.calls i with
    | some token, some c =>
      match c.phase with
      | .answered (.authenticated true) => some
        { (s.begin (.authenticate token)).setClient i ⟨token, true, some s.nextCall⟩ with
          registered := s.registered ++ [i]
          upgrades := Function.update s.upgrades i none }
      | _ => none
    | _, _ => none
  | .recheck i => (s.clients i).bind fun client => client.recheck.bind fun j => (s.auth.calls j).bind fun c =>
    match c.phase with
    | .answered given => some (s.setClient i { client with
        recheck := none
        isOpen := client.isOpen && given.accepts })
    | .threw => some (s.setClient i { client with recheck := none })
    | _ => none
  | .advance k => (s.passes k).bind fun pass => (s.auth.calls pass.call).bind fun c =>
    match c.phase with
    | .answered given => some ((if given.accepts then s else s.close pass.client).checkNext k pass.rest)
    | .threw => some (s.setPass k none)
    | _ => none
  | .leave i => (s.clients i).map fun client =>
    { s.setClient i { client with isOpen := false } with registered := s.registered.erase i }

/-- The token is accepted on the store as it is. -/
def accepted (s : EventBridge) (token : Option String) : Bool :=
  (Authenticator.answer E (activeHashes s.auth.current.entries) (.authenticate token)).accepts

/-- The clients a pass or a second check that waits for this call has yet to check. -/
def awaiting (s : EventBridge) (i client : ℕ) : Prop :=
  (∃ k pass, s.passes k = some pass ∧ pass.call = i ∧ client ∈ pass.client :: pass.rest) ∨
    ∃ c, s.clients client = some c ∧ c.recheck = some i

/-- No fault of the store strikes a pass or a second check that has an open client with a revoked token
left to check. -/
def Careful (s : EventBridge) : Label → Prop
  | .statFails i | .readFails i =>
    ∀ client c, s.clients client = some c → c.isOpen = true → s.awaiting i client → s.accepted E c.token = true
  | _ => True

/-- A poll that began on the store as it is has come back, and every pass is over. -/
structure Settled (s : EventBridge) : Prop where
  polled : ∃ i c, s.auth.calls i = some c ∧ c.request = .poll ∧ c.begun = s.auth.versions.length - 1 ∧
    c.phase = .answered .polled
  passes : ∀ k, s.passes k = none

end Step

def Initial (s : EventBridge) : Prop := ∃ v, s = create v

open Authenticator

variable {E : Environment} {s t : EventBridge}

/-- The version that was current when the call began still is. -/
def Latest (s : EventBridge) (c : AuthCall) : Prop := c.begun = s.auth.versions.length - 1

/-- What will close an open client whose token is revoked: the current store is yet to be cached, its
second check began on it, or a pass still has it to check. -/
def Covered (s : EventBridge) (i : ℕ) (client : BridgeClient) : Prop :=
  s.auth.current.key ∉ s.storedKeys ∨
    (∃ j c, client.recheck = some j ∧ s.auth.calls j = some c ∧ s.Latest c ∧ c.phase ≠ .threw) ∨
    ∃ k pass c, s.passes k = some pass ∧ s.auth.calls pass.call = some c ∧ c.phase ≠ .threw ∧
      (i ∈ pass.rest ∨ (pass.client = i ∧ s.Latest c))

/-- The calls, clients and passes fit together. -/
structure Linked (E : Environment) (s : EventBridge) : Prop where
  fresh : Fresh E s.auth
  below : ∀ i c, s.auth.calls i = some c → i < s.nextCall
  answered : ∀ i c given, s.auth.calls i = some c → c.phase = .answered given →
    s.auth.cached.isSome = true ∧ (s.Latest c → s.auth.current.key ∈ s.storedKeys)
  stored : ∀ key ∈ s.storedKeys, ∃ v ∈ s.auth.versions, v.key = key
  cached : ∀ key hashes, s.auth.cached = some (key, hashes) → key ∈ s.storedKeys
  upgrades : ∀ i token, s.upgrades i = some token → s.clients i = none ∧ i < s.nextCall
  clients : ∀ i client, s.clients i = some client → i < s.nextCall ∧ s.auth.cached.isSome = true ∧
    (client.isOpen = true → i ∈ s.registered) ∧
    ∀ j, client.recheck = some j → ∃ c, s.auth.calls j = some c ∧ c.request = .authenticate client.token
  registered : ∀ i ∈ s.registered, (s.clients i).isSome = true
  passes : ∀ k pass, s.passes k = some pass → k < s.nextPass ∧
    (∀ i ∈ pass.client :: pass.rest, (s.clients i).isSome = true) ∧
    ∃ c, s.auth.calls pass.call = some c ∧ c.request = .authenticate (s.tokenOf pass.client)

/-- Every open client with a revoked token is yet to be closed. -/
def Watched (E : Environment) (s : EventBridge) : Prop :=
  ∀ i client, s.clients i = some client → client.isOpen = true → s.accepted E client.token = false → s.Covered i client

/-- A call that began on the current store answers from it. -/
theorem Linked.answers_current (k : Linked E s) {i : ℕ} {c : AuthCall} {given : AuthAnswer}
    (hc : s.auth.calls i = some c) (hl : s.Latest c) (hp : c.phase = .answered given) {token : Option String}
    (hr : c.request = .authenticate token) : given.accepts = s.accepted E token := by
  obtain ⟨v, hv, rfl⟩ := answered_from_version k.fresh hc hp
  have hlast : s.auth.versions.drop c.begun = [s.auth.current] := by
    rw [hl, List.drop_length_sub_one k.fresh.nonempty]
    have := current_eq k.fresh.nonempty
    rw [← List.getLast?_eq_getElem?, List.getLast?_eq_getLast_of_ne_nil k.fresh.nonempty] at this
    rw [Option.some_inj.mp this]
  rw [hlast, List.mem_singleton] at hv
  rw [hv, hr]
  rfl

/-! ## Calls -/

/-- The call at `i` goes on, with the request and the beginning it had. -/
def withCall (s : EventBridge) (i : ℕ) (c : AuthCall) : EventBridge := { s with auth := s.auth.put i c }

theorem calls_withCall (i j : ℕ) (c : AuthCall) :
    (s.withCall i c).auth.calls j = if j = i then some c else s.auth.calls j := by
  simp [withCall, Authenticator.put, Function.update_apply]

/-- Whatever a call goes on to, the calls that are there stay. -/
theorem exists_call_withCall {i j : ℕ} {c d : AuthCall} (hc : s.auth.calls i = some c) {next : AuthCall}
    (hr : next.request = c.request) (hb : next.begun = c.begun) (hd : s.auth.calls j = some d) :
    ∃ d', (s.withCall i next).auth.calls j = some d' ∧ d'.request = d.request ∧ d'.begun = d.begun ∧
      (d'.phase = d.phase ∨ j = i ∧ d' = next) := by
  rw [calls_withCall]
  split
  case isTrue hj =>
    subst hj
    obtain rfl := Option.some_inj.mp (hc.symm.trans hd)
    exact ⟨next, rfl, hr, hb, Or.inr ⟨rfl, rfl⟩⟩
  case isFalse => exact ⟨d, hd, rfl, rfl, Or.inl rfl⟩

theorem Linked.withCall (k : Linked E s) {i : ℕ} {c next : AuthCall} (hc : s.auth.calls i = some c)
    (hr : next.request = c.request) (hb : next.begun = c.begun) (hf : Fits E s.auth.versions next)
    (ha : ∀ given, next.phase = .answered given →
      s.auth.cached.isSome = true ∧ (s.Latest c → s.auth.current.key ∈ s.storedKeys)) :
    Linked E (s.withCall i next) where
  fresh := k.fresh.put (hb ▸ (k.fresh.calls i c hc).1) hf
  below j d hd := by
    rw [calls_withCall] at hd
    split at hd
    case isTrue hj => exact hj ▸ k.below i c hc
    case isFalse => exact k.below j d hd
  answered j d given hd hp := by
    rw [calls_withCall] at hd
    split at hd
    case isTrue hj =>
      obtain rfl := Option.some_inj.mp hd
      obtain ⟨hcached, hkey⟩ := ha given hp
      exact ⟨hcached, fun hl => hkey (hb.symm.trans hl)⟩
    case isFalse => exact k.answered j d given hd hp
  stored := k.stored
  cached := k.cached
  upgrades := k.upgrades
  clients j client hj := by
    obtain ⟨hlt, hcached, hopen, hrecheck⟩ := k.clients j client hj
    refine ⟨hlt, hcached, hopen, fun l hl => ?_⟩
    obtain ⟨d, hd, hreq⟩ := hrecheck l hl
    obtain ⟨d', hd', hreq', -⟩ := exists_call_withCall hc hr hb hd
    exact ⟨d', hd', hreq'.trans hreq⟩
  registered := k.registered
  passes m pass hm := by
    obtain ⟨hlt, hclients, d, hd, hreq⟩ := k.passes m pass hm
    obtain ⟨d', hd', hreq', -⟩ := exists_call_withCall hc hr hb hd
    exact ⟨hlt, hclients, d', hd', hreq'.trans hreq⟩

theorem Watched.withCall (w : Watched E s) {i : ℕ} {c next : AuthCall} (hc : s.auth.calls i = some c)
    (hr : next.request = c.request) (hb : next.begun = c.begun)
    (ht : next.phase = .threw → ∀ j client, s.clients j = some client → client.isOpen = true → s.awaiting i j →
      s.accepted E client.token = true) : Watched E (s.withCall i next) := by
  intro j client hj ho hrefused
  have ha : s.accepted E client.token = false := hrefused
  -- A call that does not throw covers as before; one that throws had only accepted tokens to check.
  have hstill : ∀ l d, s.auth.calls l = some d → d.phase ≠ .threw → (l = i → s.awaiting i j) →
      ∃ d', (s.withCall i next).auth.calls l = some d' ∧ d'.begun = d.begun ∧ d'.phase ≠ .threw := by
    intro l d hd hp hwait
    obtain ⟨d', hd', -, hbegun, hphase⟩ := exists_call_withCall hc hr hb hd
    refine ⟨d', hd', hbegun, fun hthrew => ?_⟩
    rcases hphase with hphase | ⟨rfl, rfl⟩
    · exact hp (hphase.symm.trans hthrew)
    · exact absurd ((ht hthrew j client hj ho (hwait rfl)).symm.trans ha) (by simp)
  rcases w j client hj ho ha with h | ⟨l, d, hl, hd, hlatest, hp⟩ | ⟨m, pass, d, hm, hd, hp, hcase⟩
  · exact Or.inl h
  · obtain ⟨d', hd', hbegun, hp'⟩ := hstill l d hd hp fun he => Or.inr ⟨client, hj, he ▸ hl⟩
    exact Or.inr (Or.inl ⟨l, d', hl, hd', hbegun.trans hlatest, hp'⟩)
  · have hmem : j ∈ pass.client :: pass.rest := by
      rcases hcase with h | ⟨h, -⟩
      · exact List.mem_cons_of_mem _ h
      · exact h ▸ List.mem_cons_self
    obtain ⟨d', hd', hbegun, hp'⟩ := hstill pass.call d hd hp fun he => Or.inl ⟨m, pass, hm, he, hmem⟩
    refine Or.inr (Or.inr ⟨m, pass, d', hm, hd', hp', hcase.imp_right fun h => ⟨h.1, hbegun.trans h.2⟩⟩)

/-- A new call disturbs none that is there. -/
theorem calls_begin (k : Linked E s) (request : AuthRequest) {j : ℕ} {d : AuthCall} (hd : s.auth.calls j = some d) :
    (s.begin request).auth.calls j = some d := by
  have hne : j ≠ s.nextCall := (k.below j d hd).ne
  simp [begin, Authenticator.put, hne, hd]

theorem calls_begin_new (request : AuthRequest) : (s.begin request).auth.calls s.nextCall =
    some ⟨request, s.auth.versions.length - 1, .calling, false⟩ := by
  simp [begin, Authenticator.put]

theorem Linked.begin (k : Linked E s) (request : AuthRequest) : Linked E (s.begin request) where
  fresh := by
    have := List.length_pos_iff.mpr k.fresh.nonempty
    exact k.fresh.put (by simp only; omega) rfl
  below j d hd := by
    simp only [EventBridge.begin, Authenticator.put, Function.update_apply] at hd ⊢
    split at hd
    · omega
    · exact (k.below j d hd).trans (Nat.lt_succ_self _)
  answered j d given hd hp := by
    simp only [EventBridge.begin, Authenticator.put, Function.update_apply] at hd
    split at hd
    · obtain rfl := Option.some_inj.mp hd
      simp at hp
    · exact k.answered j d given hd hp
  stored := k.stored
  cached := k.cached
  upgrades j token hj := ⟨(k.upgrades j token hj).1, (k.upgrades j token hj).2.trans (Nat.lt_succ_self _)⟩
  clients j client hj := by
    obtain ⟨hlt, hcached, hopen, hrecheck⟩ := k.clients j client hj
    refine ⟨hlt.trans (Nat.lt_succ_self _), hcached, hopen, fun l hl => ?_⟩
    obtain ⟨d, hd, hreq⟩ := hrecheck l hl
    exact ⟨d, calls_begin k request hd, hreq⟩
  registered := k.registered
  passes m pass hm := by
    obtain ⟨hlt, hclients, d, hd, hreq⟩ := k.passes m pass hm
    exact ⟨hlt, hclients, d, calls_begin k request hd, hreq⟩

theorem Covered.begin (k : Linked E s) (request : AuthRequest) {i : ℕ} {client : BridgeClient}
    (h : s.Covered i client) : (s.begin request).Covered i client := by
  rcases h with h | ⟨l, d, hl, hd, hlatest, hp⟩ | ⟨m, pass, d, hm, hd, hp, hcase⟩
  · exact Or.inl h
  · exact Or.inr (Or.inl ⟨l, d, hl, calls_begin k request hd, hlatest, hp⟩)
  · exact Or.inr (Or.inr ⟨m, pass, d, hm, calls_begin k request hd, hp, hcase⟩)

theorem Watched.begin (k : Linked E s) (w : Watched E s) (request : AuthRequest) : Watched E (s.begin request) :=
  fun i client hi ho ha => (w i client hi ho ha).begin k request

/-! ## Passes -/

theorem passes_setPass (m n : ℕ) (pass : Option RevalidationPass) :
    (s.setPass m pass).passes n = if n = m then pass else s.passes n := by
  simp [setPass, Function.update_apply]

theorem clients_checkNext (m : ℕ) (rest : List ℕ) : (s.checkNext m rest).clients = s.clients := by
  cases rest <;> rfl

theorem current_checkNext (m : ℕ) (rest : List ℕ) : (s.checkNext m rest).auth.current = s.auth.current := by
  cases rest <;> rfl

/-- A pass goes on to clients that are there. -/
theorem Linked.checkNext (k : Linked E s) {m : ℕ} {rest : List ℕ} (hm : m < s.nextPass)
    (hrest : ∀ i ∈ rest, (s.clients i).isSome = true) : Linked E (s.checkNext m rest) := by
  cases rest with
  | nil =>
    refine { k with passes := fun n pass hn => ?_ }
    have hn : (s.setPass m none).passes n = some pass := hn
    rw [passes_setPass] at hn
    split at hn
    · simp at hn
    · exact k.passes n pass hn
  | cons client rest =>
    have kb := k.begin (.authenticate (s.tokenOf client))
    refine { kb with passes := fun n pass hn => ?_ }
    have hn : ((s.begin (.authenticate (s.tokenOf client))).setPass m (some ⟨client, s.nextCall, rest⟩)).passes n =
      some pass := hn
    rw [passes_setPass] at hn
    split at hn
    case isTrue hnm =>
      obtain rfl := Option.some_inj.mp hn
      exact ⟨hnm ▸ hm, hrest, _, calls_begin_new _, rfl⟩
    case isFalse => exact kb.passes n pass hn

/-- What the pass now has to check is covered, and so is what was covered otherwise. -/
theorem Covered.checkNext (k : Linked E s) {m i : ℕ} {rest : List ℕ} {client : BridgeClient}
    (h : i ∈ rest ∨ (s.setPass m none).Covered i client) : (s.checkNext m rest).Covered i client := by
  cases rest with
  | nil => exact h.resolve_left List.not_mem_nil
  | cons next rest =>
    rcases h with h | h | ⟨l, d, hl, hd, hlatest, hp⟩ | ⟨n, pass, d, hn, hd, hp, hcase⟩
    · refine Or.inr (Or.inr ⟨m, ⟨next, s.nextCall, rest⟩, _, ?_, calls_begin_new _, by simp, ?_⟩)
      · simp [EventBridge.checkNext, passes_setPass]
      · exact (List.mem_cons.mp h).symm.imp_right fun h => ⟨h.symm, rfl⟩
    · exact Or.inl h
    · exact Or.inr (Or.inl ⟨l, d, hl, calls_begin k _ hd, hlatest, hp⟩)
    · refine Or.inr (Or.inr ⟨n, pass, d, ?_, calls_begin k _ hd, hp, hcase⟩)
      rw [passes_setPass] at hn
      split at hn
      · simp at hn
      · rename_i hne
        rw [EventBridge.checkNext, passes_setPass, if_neg hne]
        exact hn

/-! ## Clients -/

theorem clients_setClient (i j : ℕ) (client : BridgeClient) :
    (s.setClient i client).clients j = if j = i then some client else s.clients j := by
  simp [setClient, Function.update_apply]

/-- A client that is there goes on with its token. -/
theorem Linked.setClient (k : Linked E s) {i : ℕ} {client next : BridgeClient} (hi : s.clients i = some client)
    (ht : next.token = client.token) (ho : next.isOpen = true → client.isOpen = true)
    (hr : next.recheck = client.recheck ∨ next.recheck = none) : Linked E (s.setClient i next) := by
  have hsome : ∀ j, (s.clients j).isSome = true → ((s.setClient i next).clients j).isSome = true := by
    intro j hj
    rw [clients_setClient]
    split <;> simp_all
  have htoken : ∀ j, (s.setClient i next).tokenOf j = s.tokenOf j := by
    intro j
    rw [tokenOf, clients_setClient]
    split
    case isTrue hj => simp [tokenOf, hj, hi, ht]
    case isFalse => rfl
  refine
    { k with
      upgrades := fun j token hj => ⟨?_, (k.upgrades j token hj).2⟩
      clients := fun j d hd => ?_
      registered := fun j hj => hsome j (k.registered j hj)
      passes := fun m pass hm => ?_ }
  · have hnone := (k.upgrades j token hj).1
    rw [clients_setClient, if_neg fun he => by simp [he, hi] at hnone]
    exact hnone
  · rw [clients_setClient] at hd
    split at hd
    case isTrue hj =>
      subst hj
      obtain rfl := Option.some_inj.mp hd
      obtain ⟨hlt, hcached, hopen, hrecheck⟩ := k.clients j client hi
      refine ⟨hlt, hcached, fun h => hopen (ho h), fun l hl => ?_⟩
      rcases hr with hr | hr
      · rw [ht]
        exact hrecheck l (hr.symm.trans hl)
      · simp [hr] at hl
    case isFalse => exact k.clients j d hd
  · obtain ⟨hlt, hclients, c, hc, hreq⟩ := k.passes m pass hm
    exact ⟨hlt, fun j hj => hsome j (hclients j hj), c, hc, by rw [hreq, htoken]⟩

/-- The others stay covered, and the client itself if it stays open. -/
theorem Watched.setClient (w : Watched E s) {i : ℕ} {next : BridgeClient}
    (hi : next.isOpen = true → s.accepted E next.token = false → s.Covered i next) :
    Watched E (s.setClient i next) := by
  intro j client hj ho ha
  rw [clients_setClient] at hj
  split at hj
  case isTrue hji =>
    subst hji
    obtain rfl := Option.some_inj.mp hj
    exact hi ho ha
  case isFalse => exact w j client hj ho ha

theorem Linked.close (k : Linked E s) (i : ℕ) : Linked E (s.close i) := by
  unfold EventBridge.close
  split
  · rename_i client hi
    exact k.setClient hi rfl (by simp) (Or.inl rfl)
  · exact k

/-- After a close, the client is not among the open ones. -/
theorem clients_close {i j : ℕ} {client : BridgeClient} (hj : (s.close i).clients j = some client)
    (ho : client.isOpen = true) : s.clients j = some client ∧ j ≠ i := by
  unfold EventBridge.close at hj
  split at hj
  · rw [clients_setClient] at hj
    split at hj
    · obtain rfl := Option.some_inj.mp hj
      simp at ho
    · exact ⟨hj, ‹_›⟩
  · rename_i hnone
    exact ⟨hj, fun he => by simp [← he, hj] at hnone⟩

theorem isSome_clients_close (i j : ℕ) : ((s.close i).clients j).isSome = (s.clients j).isSome := by
  unfold EventBridge.close
  split
  · rename_i client hi
    rw [clients_setClient]
    split
    case isTrue hj => simp [hj, hi]
    case isFalse => rfl
  · rfl

theorem close_frame (i : ℕ) : (s.close i).auth = s.auth ∧ (s.close i).passes = s.passes ∧
    (s.close i).storedKeys = s.storedKeys ∧ (s.close i).nextPass = s.nextPass := by
  unfold EventBridge.close
  split <;> exact ⟨rfl, rfl, rfl, rfl⟩

/-! ## Steps -/

/-- The key a call on the current store has seen is the current one. -/
theorem Linked.seen_latest (k : Linked E s) {c : AuthCall} {key : Option FileKey} {m : ℕ}
    (hm : Seen s.auth.versions c.begun key m) (hl : s.Latest c) : s.auth.current.key = key := by
  obtain ⟨v, hv, hkey⟩ := Option.map_eq_some_iff.mp hm.2
  have hlt := (List.getElem?_eq_some_iff.mp hv).1
  have hle := hm.1
  rw [Latest] at hl
  obtain rfl : m = s.auth.versions.length - 1 := by omega
  rw [current_eq k.fresh.nonempty] at hv
  rw [Option.some_inj.mp hv, hkey]

/-- What holds at every state of every careful run. -/
def Sound (E : Environment) (s : EventBridge) : Prop := Linked E s ∧ Watched E s

theorem Sound.rename (h : Sound E s) {key : FileKey} {entries : List AccessToken}
    (hs : s.authStep E (.rename key entries) = some t) : Sound E t := by
  obtain ⟨k, -⟩ := h
  obtain ⟨auth, ha, rfl⟩ := Option.map_eq_some_iff.mp hs
  have hfresh := step_fresh k.fresh ha
  obtain ⟨hkey, ⟨⟩⟩ := Option.ite_none_left_eq_some.mp ha
  have hnew : some key ∉ s.storedKeys := by
    intro hm
    obtain ⟨v, hv, he⟩ := k.stored _ hm
    exact hkey (List.any_eq_true.mpr ⟨v, hv, by simpa using he⟩)
  refine ⟨{ k with fresh := hfresh, answered := fun i c given hc hp => ?_, stored := fun other ho => ?_ }, ?_⟩
  · refine ⟨(k.answered i c given hc hp).1, fun hl => ?_⟩
    have hb := (k.fresh.calls i c hc).1
    simp only [Latest, List.length_append, List.length_singleton] at hl
    omega
  · obtain ⟨v, hv, he⟩ := k.stored other ho
    exact ⟨v, List.mem_append_left _ hv, he⟩
  · refine fun i client _ _ _ => Or.inl ?_
    have hcurrent : Authenticator.current { s.auth with versions := s.auth.versions ++ [⟨some (key, entries)⟩] } =
        ⟨some (key, entries)⟩ := by
      simp [Authenticator.current]
    rw [hcurrent]
    exact hnew

theorem fits_of_put {a : Authenticator} {i : ℕ} {c : AuthCall} (h : Fresh E (a.put i c)) : Fits E a.versions c :=
  (h.calls i c (by simp [Authenticator.put])).2

/-- A call that goes on, to anything but an answer or a throw. -/
theorem Sound.goesOn (h : Sound E s) {i : ℕ} {c next : AuthCall} (hc : s.auth.calls i = some c)
    (hr : next.request = c.request) (hb : next.begun = c.begun) (hf : Fits E s.auth.versions next)
    (hn : ∀ given, next.phase ≠ .answered given) (ht : next.phase ≠ .threw) : Sound E (s.withCall i next) :=
  ⟨h.1.withCall hc hr hb hf fun given hg => absurd hg (hn given), h.2.withCall hc hr hb fun hg => absurd hg ht⟩

theorem Sound.throws (h : Sound E s) {i : ℕ} {c next : AuthCall} (hc : s.auth.calls i = some c)
    (hr : next.request = c.request) (hb : next.begun = c.begun) (hp : next.phase = .threw)
    (hcareful : ∀ j client, s.clients j = some client → client.isOpen = true → s.awaiting i j →
      s.accepted E client.token = true) : Sound E (s.withCall i next) := by
  refine ⟨h.1.withCall hc hr hb ?_ fun given hg => absurd (hp.symm.trans hg) (by simp),
    h.2.withCall hc hr hb fun _ => hcareful⟩
  simp only [Fits, hp]

theorem Sound.stat (h : Sound E s) {i : ℕ} (hs : s.authStep E (.stat i) = some t) : Sound E t := by
  obtain ⟨auth, ha, rfl⟩ := Option.map_eq_some_iff.mp hs
  have hfresh := step_fresh h.1.fresh ha
  obtain ⟨c, hc, hp⟩ := Option.bind_eq_some_iff.mp ha
  split at hp
  · obtain rfl := Option.some_inj.mp hp
    exact h.goesOn hc rfl rfl (fits_of_put hfresh) (by simp) (by simp)
  · simp at hp

theorem Sound.read (h : Sound E s) {i : ℕ} (hs : s.authStep E (.read i) = some t) : Sound E t := by
  obtain ⟨auth, ha, rfl⟩ := Option.map_eq_some_iff.mp hs
  have hfresh := step_fresh h.1.fresh ha
  obtain ⟨c, hc, hp⟩ := Option.bind_eq_some_iff.mp ha
  split at hp
  · obtain rfl := Option.some_inj.mp hp
    exact h.goesOn hc rfl rfl (fits_of_put hfresh) (by simp) (by simp)
  · simp at hp

theorem Sound.statFails (h : Sound E s) {i : ℕ} (hl : Careful E s (.statFails i))
    (hs : s.authStep E (.statFails i) = some t) : Sound E t := by
  obtain ⟨auth, ha, rfl⟩ := Option.map_eq_some_iff.mp hs
  obtain ⟨c, hc, hp⟩ := Option.bind_eq_some_iff.mp ha
  split at hp
  · obtain rfl := Option.some_inj.mp hp
    exact h.throws hc rfl rfl rfl hl
  · simp at hp

theorem Sound.readFails (h : Sound E s) {i : ℕ} (hl : Careful E s (.readFails i))
    (hs : s.authStep E (.readFails i) = some t) : Sound E t := by
  obtain ⟨auth, ha, rfl⟩ := Option.map_eq_some_iff.mp hs
  obtain ⟨c, hc, hp⟩ := Option.bind_eq_some_iff.mp ha
  split at hp
  · obtain rfl := Option.some_inj.mp hp
    exact h.throws hc rfl rfl rfl hl
  · simp at hp

theorem Sound.compare (h : Sound E s) {i : ℕ} (hs : s.authStep E (.compare i) = some t) : Sound E t := by
  obtain ⟨auth, ha, rfl⟩ := Option.map_eq_some_iff.mp hs
  have hfresh := step_fresh h.1.fresh ha
  obtain ⟨c, hc, hp⟩ := Option.bind_eq_some_iff.mp ha
  split at hp
  · rename_i key hphase
    obtain rfl := Option.some_inj.mp hp
    have hfits := (h.1.fresh.calls i c hc).2
    simp only [Fits, hphase] at hfits
    obtain ⟨-, m, hm⟩ := hfits
    unfold compareKey at hfresh ⊢
    split at hfresh
    · rename_i cachedKey hashes hcached
      split at hfresh
      case isTrue hkey =>
        subst hkey
        simp only [if_true]
        have hf := fits_of_put hfresh
        refine ⟨h.1.withCall hc rfl rfl hf fun _ _ => ⟨by simp [hcached], fun hl => ?_⟩,
          h.2.withCall hc rfl rfl fun hg => absurd hg (by simp)⟩
        exact h.1.seen_latest hm hl ▸ h.1.cached cachedKey hashes hcached
      case isFalse hkey =>
        simp only [hkey, if_false]
        exact h.goesOn hc rfl rfl (fits_of_put hfresh) (by simp) (by simp)
    · exact h.goesOn hc rfl rfl (fits_of_put hfresh) (by simp) (by simp)
  · simp at hp

/-- The file's entries are cached, before the listeners hear of it. -/
theorem Linked.store (k : Linked E s) {i : ℕ} {c : AuthCall} {key : Option FileKey} {entries : List AccessToken}
    (hc : s.auth.calls i = some c) (hp : c.phase = .loaded key entries) :
    Linked E { s with auth := s.auth.storeHashes E i c key entries, storedKeys := s.storedKeys ++ [key] } := by
  have hstep : s.auth.step E (.store i) = some (s.auth.storeHashes E i c key entries) := by
    simp [Authenticator.step, hc, hp]
  have hfresh := step_fresh k.fresh hstep
  have hfits := (k.fresh.calls i c hc).2
  simp only [Fits, hp] at hfits
  obtain ⟨-, m, hm, -⟩ := hfits
  have hf : Fits E s.auth.versions { c with phase := .answered (answer E (activeHashes entries) c.request) } :=
    (hfresh.calls i _ (by simp [Authenticator.put, storeHashes])).2
  -- As a call that goes on, with the cache filled.
  have kc : Linked E { s with
      auth := { s.auth with cached := some (key, activeHashes entries) }
      storedKeys := s.storedKeys ++ [key] } := by
    refine
      { k with
        fresh := ⟨k.fresh.nonempty, k.fresh.distinct, hfresh.cached, k.fresh.calls⟩
        answered := fun j d given hd hg => ⟨rfl, fun hl => ?_⟩
        stored := fun other ho => ?_
        cached := fun other hashes ho => ?_
        clients := fun j client hj => ?_ }
    · exact List.mem_append_left _ ((k.answered j d given hd hg).2 hl)
    · rcases List.mem_append.mp ho with ho | ho
      · exact k.stored other ho
      · obtain ⟨v, hv, hkey⟩ := Option.map_eq_some_iff.mp hm.2
        exact ⟨v, List.mem_of_getElem? hv, hkey.trans (List.mem_singleton.mp ho).symm⟩
    · obtain ⟨rfl, rfl⟩ := Prod.mk.inj (Option.some_inj.mp ho)
      exact List.mem_append_right _ List.mem_cons_self
    · obtain ⟨hlt, -, hrest⟩ := k.clients j client hj
      exact ⟨hlt, rfl, hrest⟩
  refine kc.withCall hc rfl rfl hf fun _ _ => ⟨rfl, fun hl => ?_⟩
  refine List.mem_append_right _ (List.mem_singleton.mpr ?_)
  exact k.seen_latest hm hl

/-- A client that was covered still is, unless the store just cached is the current one. -/
theorem Covered.store {i j : ℕ} {c : AuthCall} {key : Option FileKey} {entries : List AccessToken}
    {client : BridgeClient} (hc : s.auth.calls i = some c) (h : s.Covered j client) (hk : s.auth.current.key ≠ key) :
    Covered { s with auth := s.auth.storeHashes E i c key entries, storedKeys := s.storedKeys ++ [key] } j client := by
  have hstill : ∀ l d, s.auth.calls l = some d → d.phase ≠ .threw →
      ∃ d', (s.auth.storeHashes E i c key entries).calls l = some d' ∧ d'.begun = d.begun ∧ d'.phase ≠ .threw := by
    intro l d hd hp
    simp only [storeHashes, Authenticator.put, Function.update_apply]
    split
    case isTrue hl =>
      subst hl
      obtain rfl := Option.some_inj.mp (hc.symm.trans hd)
      exact ⟨_, rfl, rfl, by simp⟩
    case isFalse => exact ⟨d, hd, rfl, hp⟩
  rcases h with h | ⟨l, d, hl, hd, hlatest, hp⟩ | ⟨n, pass, d, hn, hd, hp, hcase⟩
  · refine Or.inl fun hm => ?_
    rcases List.mem_append.mp hm with hm | hm
    · exact h hm
    · exact hk (List.mem_singleton.mp hm)
  · obtain ⟨d', hd', hbegun, hp'⟩ := hstill l d hd hp
    exact Or.inr (Or.inl ⟨l, d', hl, hd', hbegun.trans hlatest, hp'⟩)
  · obtain ⟨d', hd', hbegun, hp'⟩ := hstill pass.call d hd hp
    exact Or.inr (Or.inr ⟨n, pass, d', hn, hd', hp', hcase.imp_right fun h => ⟨h.1, hbegun.trans h.2⟩⟩)

theorem checkNext_nextPass (m n : ℕ) (rest : List ℕ) :
    { s.checkNext m rest with nextPass := n } = EventBridge.checkNext { s with nextPass := n } m rest := by
  cases rest <;> rfl

theorem revalidate_eq :
    s.revalidate = EventBridge.checkNext { s with nextPass := s.nextPass + 1 } s.nextPass s.registered :=
  checkNext_nextPass _ _ _

theorem Linked.nextPass (k : Linked E s) : Linked E { s with nextPass := s.nextPass + 1 } :=
  { k with passes := fun m pass hm => ⟨(k.passes m pass hm).1.trans (Nat.lt_succ_self _), (k.passes m pass hm).2⟩ }

theorem Linked.revalidate (k : Linked E s) : Linked E s.revalidate := by
  rw [revalidate_eq]
  exact k.nextPass.checkNext (Nat.lt_succ_self _) k.registered

theorem Covered.revalidate (k : Linked E s) {i : ℕ} {client : BridgeClient}
    (h : i ∈ s.registered ∨ s.Covered i client) : s.revalidate.Covered i client := by
  rw [revalidate_eq]
  refine Covered.checkNext k.nextPass (h.imp_right fun h => ?_)
  rcases h with h | h | ⟨n, pass, d, hn, hrest⟩
  · exact Or.inl h
  · exact Or.inr (Or.inl h)
  · refine Or.inr (Or.inr ⟨n, pass, d, ?_, hrest⟩)
    rw [passes_setPass, if_neg (k.passes n pass hn).1.ne]
    exact hn

theorem clients_revalidate : s.revalidate.clients = s.clients := by
  rw [revalidate_eq, clients_checkNext]

theorem current_revalidate : s.revalidate.auth.current = s.auth.current := by
  rw [revalidate_eq, current_checkNext]

theorem Sound.store (h : Sound E s) {i : ℕ} (hs : s.step E (.store i) = some t) : Sound E t := by
  obtain ⟨k, w⟩ := h
  obtain ⟨c, hc, hp⟩ := Option.bind_eq_some_iff.mp hs
  split at hp
  · rename_i key entries hphase
    obtain rfl := Option.some_inj.mp hp
    have hstored := k.store hc hphase
    cases hcached : s.auth.cached.isSome with
    | false =>
      refine ⟨hstored, fun j client hj => ?_⟩
      exact absurd ((k.clients j client hj).2.1.symm.trans hcached) (by simp)
    | true =>
      rw [if_pos rfl]
      refine ⟨hstored.revalidate, fun j client hj ho ha => Covered.revalidate hstored ?_⟩
      rw [clients_revalidate] at hj
      rw [accepted, current_revalidate] at ha
      by_cases hkey : s.auth.current.key = key
      · exact Or.inl ((k.clients j client hj).2.2.1 ho)
      · exact Or.inr ((w j client hj ho ha).store hc hkey)
  · simp at hp

theorem Sound.begin (h : Sound E s) (request : AuthRequest) : Sound E (s.begin request) :=
  ⟨h.1.begin request, Watched.begin h.1 h.2 request⟩

theorem Sound.upgrade (h : Sound E s) (token : Option String) : Sound E { s.begin (.authenticate token) with
    upgrades := Function.update s.upgrades s.nextCall (some token) } := by
  obtain ⟨k, w⟩ := h.begin (.authenticate token)
  refine ⟨{ k with upgrades := fun i offered hi => ?_ }, w⟩
  simp only [Function.update_apply] at hi
  split at hi
  case isTrue hi' =>
    subst hi'
    refine ⟨?_, Nat.lt_succ_self _⟩
    cases hclient : s.clients s.nextCall with
    | none => exact hclient
    | some client => exact absurd (h.1.clients _ client hclient).1 (lt_irrefl _)
  case isFalse => exact k.upgrades i offered hi

/-- A new client with its second check under way. -/
def addClient (s : EventBridge) (i : ℕ) (token : Option String) (j : ℕ) : EventBridge :=
  { s.setClient i ⟨token, true, some j⟩ with
    registered := s.registered ++ [i]
    upgrades := Function.update s.upgrades i none }

theorem clients_addClient (i j l : ℕ) (token : Option String) :
    (s.addClient i token j).clients l = if l = i then some ⟨token, true, some j⟩ else s.clients l :=
  clients_setClient i l _

theorem Linked.addClient (k : Linked E s) {i j : ℕ} {token : Option String} {c : AuthCall}
    (hnone : s.clients i = none) (hlt : i < s.nextCall) (hcached : s.auth.cached.isSome = true)
    (hc : s.auth.calls j = some c) (hr : c.request = .authenticate token) : Linked E (s.addClient i token j) := by
  have hne : ∀ l, (s.clients l).isSome = true → l ≠ i := by
    rintro l hl rfl
    simp [hnone] at hl
  have hsome : ∀ l, (s.clients l).isSome = true → ((s.addClient i token j).clients l).isSome = true := by
    intro l hl
    rw [clients_addClient, if_neg (hne l hl)]
    exact hl
  refine
    { k with
      upgrades := fun l offered hl => ?_
      clients := fun l client hl => ?_
      registered := fun l hl => ?_
      passes := fun m pass hm => ?_ }
  · simp only [EventBridge.addClient, Function.update_apply] at hl
    split at hl
    · simp at hl
    · rename_i hli
      refine ⟨?_, (k.upgrades l offered hl).2⟩
      rw [clients_addClient, if_neg hli]
      exact (k.upgrades l offered hl).1
  · rw [clients_addClient] at hl
    split at hl
    case isTrue hli =>
      obtain rfl := Option.some_inj.mp hl
      refine ⟨hli ▸ hlt, hcached, fun _ => hli ▸ List.mem_append_right _ List.mem_cons_self, fun n hn => ?_⟩
      obtain rfl := Option.some_inj.mp hn
      exact ⟨c, hc, hr⟩
    case isFalse =>
      obtain ⟨hlt, hcached, hopen, hrecheck⟩ := k.clients l client hl
      exact ⟨hlt, hcached, fun h => List.mem_append_left _ (hopen h), hrecheck⟩
  · rcases List.mem_append.mp hl with hl | hl
    · exact hsome l (k.registered l hl)
    · rw [List.mem_singleton.mp hl, clients_addClient, if_pos rfl]
      rfl
  · obtain ⟨hlt, hclients, d, hd, hreq⟩ := k.passes m pass hm
    refine ⟨hlt, fun l hl => hsome l (hclients l hl), d, hd, ?_⟩
    have hkeep := hne pass.client (hclients _ List.mem_cons_self)
    rw [hreq, tokenOf, tokenOf, clients_addClient, if_neg hkeep]

theorem Sound.admits (h : Sound E s) {i : ℕ} (hs : s.step E (.admits i) = some t) : Sound E t := by
  simp only [step] at hs
  split at hs
  · rename_i token c hup hc
    split at hs
    · rename_i hphase
      obtain rfl := Option.some_inj.mp hs
      obtain ⟨kb, wb⟩ := h.begin (.authenticate token)
      obtain ⟨hnone, hlt⟩ := h.1.upgrades i token hup
      have hcached := (h.1.answered i c _ hc hphase).1
      have hcall := calls_begin_new (s := s) (.authenticate token)
      refine ⟨kb.addClient hnone (hlt.trans (Nat.lt_succ_self _)) hcached hcall rfl, fun j client hj ho ha => ?_⟩
      have hj : ((s.begin (.authenticate token)).addClient i token s.nextCall).clients j = some client := hj
      rw [clients_addClient] at hj
      split at hj
      · obtain rfl := Option.some_inj.mp hj
        exact Or.inr (Or.inl ⟨s.nextCall, _, rfl, hcall, rfl, by simp⟩)
      · exact wb j client hj ho ha
    · simp at hs
  · simp at hs

theorem Sound.recheck (h : Sound E s) {i : ℕ} (hs : s.step E (.recheck i) = some t) : Sound E t := by
  obtain ⟨k, w⟩ := h
  obtain ⟨client, hi, hs⟩ := Option.bind_eq_some_iff.mp hs
  obtain ⟨j, hj, hs⟩ := Option.bind_eq_some_iff.mp hs
  obtain ⟨c, hc, hs⟩ := Option.bind_eq_some_iff.mp hs
  obtain ⟨d, hd, hreq⟩ := (k.clients i client hi).2.2.2 j hj
  obtain rfl := Option.some_inj.mp (hc.symm.trans hd)
  -- Without its second check, the client needs one of the other two covers.
  have hother : s.Covered i client → (c.phase ≠ .threw → ¬ s.Latest c) → s.Covered i { client with recheck := none } := by
    rintro (h | ⟨l, e, hl, he, hlatest, hp⟩ | h) hnot
    · exact Or.inl h
    · obtain rfl := Option.some_inj.mp (hj.symm.trans hl)
      obtain rfl := Option.some_inj.mp (hc.symm.trans he)
      exact absurd hlatest (hnot hp)
    · exact Or.inr (Or.inr h)
  split at hs
  · rename_i given hphase
    obtain rfl := Option.some_inj.mp hs
    refine ⟨k.setClient hi rfl (by simp +contextual) (Or.inr rfl), w.setClient fun ho ha => ?_⟩
    simp only [Bool.and_eq_true] at ho
    refine hother (w i client hi ho.1 ha) fun _ hl => ?_
    exact absurd ((k.answers_current hc hl hphase hreq).symm.trans ho.2) (by simp [show s.accepted E client.token = false from ha])
  · rename_i hphase
    obtain rfl := Option.some_inj.mp hs
    refine ⟨k.setClient hi rfl id (Or.inr rfl), w.setClient fun ho ha => ?_⟩
    exact hother (w i client hi ho ha) fun hp => absurd hphase hp
  · simp at hs

theorem Sound.leave (h : Sound E s) {i : ℕ} (hs : s.step E (.leave i) = some t) : Sound E t := by
  obtain ⟨k, w⟩ := h
  obtain ⟨client, hi, rfl⟩ := Option.map_eq_some_iff.mp hs
  have kc : Linked E (s.setClient i { client with isOpen := false }) := k.setClient hi rfl (by simp) (Or.inl rfl)
  refine ⟨{ kc with
      clients := fun j other hj => ?_
      registered := fun j hj => kc.registered j (List.mem_of_mem_erase hj) }, w.setClient (by simp)⟩
  obtain ⟨hlt, hcached, hopen, hrecheck⟩ := kc.clients j other hj
  refine ⟨hlt, hcached, fun ho => ?_, hrecheck⟩
  have hne : j ≠ i := by
    rintro rfl
    have hj : (s.setClient j { client with isOpen := false }).clients j = some other := hj
    rw [clients_setClient, if_pos rfl] at hj
    obtain rfl := Option.some_inj.mp hj
    simp at ho
  exact (List.mem_erase_of_ne hne).mpr (hopen ho)

/-- A cover that does not rest on the pass outlasts it. -/
theorem Covered.other {m i : ℕ} {pass : RevalidationPass} {c : AuthCall} {client : BridgeClient}
    (h : s.Covered i client) (hm : s.passes m = some pass) (hc : s.auth.calls pass.call = some c)
    (hp : c.phase ≠ .threw → i ∉ pass.rest ∧ (pass.client = i → ¬ s.Latest c)) : (s.setPass m none).Covered i client := by
  rcases h with h | h | ⟨n, other, d, hn, hd, hphase, hcase⟩
  · exact Or.inl h
  · exact Or.inr (Or.inl h)
  · refine Or.inr (Or.inr ⟨n, other, d, ?_, hd, hphase, hcase⟩)
    rw [passes_setPass, if_neg]
    · exact hn
    · rintro rfl
      obtain rfl := Option.some_inj.mp (hm.symm.trans hn)
      obtain rfl := Option.some_inj.mp (hc.symm.trans hd)
      rcases hcase with hmem | ⟨he, hl⟩
      · exact (hp hphase).1 hmem
      · exact (hp hphase).2 he hl

theorem Sound.advance (h : Sound E s) {m : ℕ} (hs : s.step E (.advance m) = some t) : Sound E t := by
  obtain ⟨k, w⟩ := h
  obtain ⟨pass, hm, hs⟩ := Option.bind_eq_some_iff.mp hs
  obtain ⟨c, hc, hs⟩ := Option.bind_eq_some_iff.mp hs
  obtain ⟨hlt, hclients, d, hd, hreq⟩ := k.passes m pass hm
  obtain rfl := Option.some_inj.mp (hc.symm.trans hd)
  split at hs
  · rename_i given hphase
    obtain rfl := Option.some_inj.mp hs
    have hrest : ∀ i ∈ pass.rest, (s.clients i).isSome = true := fun i hi => hclients i (List.mem_cons_of_mem _ hi)
    -- Whatever is open and refused, the pass did not just find refused on the current store.
    have hcover : ∀ j client, s.clients j = some client → client.isOpen = true → s.accepted E client.token = false →
        (given.accepts = false → j ≠ pass.client) → j ∈ pass.rest ∨ (s.setPass m none).Covered j client := by
      intro j client hj ho ha hne
      refine or_iff_not_imp_left.mpr fun hmem => (w j client hj ho ha).other hm hc fun _ => ⟨hmem, fun he hl => ?_⟩
      have hgiven := k.answers_current hc hl hphase hreq
      rw [he, tokenOf, hj, Option.bind_some, ha] at hgiven
      exact hne hgiven he.symm
    split
    case isTrue haccepts =>
      refine ⟨k.checkNext hlt hrest, fun j client hj ho ha => Covered.checkNext k ?_⟩
      rw [clients_checkNext] at hj
      rw [accepted, current_checkNext] at ha
      exact hcover j client hj ho ha fun hrefused => absurd (haccepts.symm.trans hrefused) (by simp)
    case isFalse =>
      have kc := k.close pass.client
      obtain ⟨hauth, hpasses, hstored, hnext⟩ := close_frame (s := s) pass.client
      refine ⟨kc.checkNext (hnext.symm ▸ hlt) fun i hi => (isSome_clients_close _ i).trans (hrest i hi),
        fun j client hj ho ha => Covered.checkNext kc ?_⟩
      rw [clients_checkNext] at hj
      rw [accepted, current_checkNext, hauth] at ha
      obtain ⟨hj, hne⟩ := clients_close hj ho
      refine (hcover j client hj ho ha fun _ => hne).imp_right fun h => ?_
      simpa only [Covered, EventBridge.setPass, Latest, hauth, hpasses, hstored] using h
  · rename_i hphase
    obtain rfl := Option.some_inj.mp hs
    have kn : Linked E (s.checkNext m []) := k.checkNext hlt (by simp)
    refine ⟨kn, fun j client hj ho ha => ?_⟩
    exact (w j client hj ho ha).other hm hc fun hp => absurd hphase hp
  · simp at hs

theorem step_sound {l : Label} (h : Sound E s) (hl : Careful E s l) (hs : step E s l = some t) : Sound E t := by
  cases l with
  | rename key entries => exact h.rename hs
  | request request =>
    obtain rfl := Option.some_inj.mp hs
    exact h.begin request
  | upgrade token =>
    obtain rfl := Option.some_inj.mp hs
    exact h.upgrade token
  | stat i => exact h.stat hs
  | statFails i => exact h.statFails hl hs
  | compare i => exact h.compare hs
  | read i => exact h.read hs
  | readFails i => exact h.readFails hl hs
  | store i => exact h.store hs
  | admits i => exact h.admits hs
  | recheck i => exact h.recheck hs
  | advance m => exact h.advance hs
  | leave i => exact h.leave hs

theorem create_sound (v : StoreVersion) : Sound E (create v) := by
  have hfresh : Fresh E (create v).auth := run_fresh (.start ⟨⟨v, rfl⟩, rfl, fun _ => rfl⟩ : Run _ _ anyLabel _)
  constructor
  · constructor <;> simp_all [create]
  · intro i client hi
    simp [create] at hi

theorem run_sound (h : Run (step E) Initial (Careful E) s) : Sound E s := by
  refine h.invariant ?_ fun _ _ _ k hl hs => step_sound k hl hs
  rintro _ ⟨v, rfl⟩
  exact create_sound v

/-- In every state of every run in which no fault of the store strikes a pass or a second check that has
a revoked token left to check: once the store as it is has been polled and every pass is over, the token
of each open client whose second check is over is accepted. -/
theorem revoked_lose_stream (h : Run (step E) Initial (Careful E) s) (hsettled : s.Settled) :
    ∀ i client, s.clients i = some client → client.isOpen = true → client.recheck = none →
      s.accepted E client.token = true := by
  intro i client hi ho hr
  obtain ⟨k, w⟩ := run_sound h
  obtain ⟨j, c, hc, -, hbegun, hphase⟩ := hsettled.polled
  have hkey := (k.answered j c _ hc hphase).2 hbegun
  by_contra ha
  rcases w i client hi ho (Bool.not_eq_true _ ▸ ha) with h | ⟨l, d, hl, -⟩ | ⟨m, pass, d, hm, -⟩
  · exact h hkey
  · simp [hr] at hl
  · simp [hsettled.passes m] at hm

namespace Revocation

def entry (revokedAt : Option String) : AccessToken :=
  ⟨"t", "phone", tokenHash plainEnvironment "secret", "2026-01-01", revokedAt⟩

def before : EventBridge := create ⟨some ("1:1:1", [entry none])⟩

def after (s : EventBridge) (labels : List Label) : EventBridge := (runLabels (step plainEnvironment) s labels).getD s

/-- The check of an upgrade has read the store. -/
def offers : List Label := [.upgrade (some "secret"), .stat 0, .compare 0, .read 0, .store 0]

def offered : EventBridge := after before offers

def admitted : EventBridge := (offered.begin (.authenticate (some "secret"))).addClient 0 (some "secret") 1

/-- The client is checked once more. -/
def rechecked : EventBridge := (after admitted [.stat 1, .compare 1]).setClient 0 ⟨some "secret", true, none⟩

/-- The token is revoked, and the new store polled. -/
def revokes (more : List Label) : List Label :=
  [.rename "2:2:2" [entry (some "2026-01-02")], .request .poll, .stat 2, .compare 2, .read 2, .store 2] ++ more

/-- The pass reaches the client. -/
def checks : List Label := revokes [.stat 3, .compare 3, .advance 0]

/-- The store cannot be read as the pass checks the client; a poll then finds the new store cached. -/
def faults : List Label := revokes [.statFails 3, .advance 0, .request .poll, .stat 4, .compare 4]

theorem answer_secret : answer plainEnvironment (activeHashes [entry none]) (.authenticate (some "secret")) =
    .authenticated true := by
  simp [answer, activeHashes, identify, entry]

theorem run_rechecked : Run (step plainEnvironment) Initial (Careful plainEnvironment) rechecked := by
  have hoffered : Run (step plainEnvironment) Initial (Careful plainEnvironment) offered := by
    refine (Run.start ⟨_, rfl⟩ : Run (step plainEnvironment) Initial (Careful plainEnvironment) before).of_runLabels
      (fun l hl s => ?_) (show runLabels (step plainEnvironment) before offers = some offered from rfl)
    simp only [offers, List.mem_cons, List.not_mem_nil, or_false] at hl
    rcases hl with rfl | rfl | rfl | rfl | rfl <;> trivial
  obtain ⟨c, hc, hp⟩ : ∃ c, offered.auth.calls 0 = some c ∧ c.phase = .answered (.authenticated true) :=
    ⟨_, rfl, congrArg _ answer_secret⟩
  have hadmitted : Run (step plainEnvironment) Initial (Careful plainEnvironment) admitted := by
    refine .next (.admits 0) hoffered trivial ?_
    simp only [step, show offered.upgrades 0 = some (some "secret") from rfl, hc, hp]
    rfl
  have hanswered : Run (step plainEnvironment) Initial (Careful plainEnvironment)
      (after admitted [.stat 1, .compare 1]) :=
    .next (.compare 1) (.next (.stat 1) hadmitted trivial rfl) trivial rfl
  obtain ⟨d, hd, hq⟩ : ∃ d, (after admitted [.stat 1, .compare 1]).auth.calls 1 = some d ∧
      d.phase = .answered (.authenticated true) := ⟨_, rfl, congrArg _ answer_secret⟩
  refine .next (.recheck 0) hanswered trivial ?_
  simp only [step, show (after admitted [.stat 1, .compare 1]).clients 0 = some ⟨some "secret", true, some 1⟩ from rfl,
    Option.bind_some, hd, hq]
  rfl

end Revocation

open Revocation in
/-- A client whose token is revoked in the store is open no longer once the pass is over. -/
theorem revoked_lose_stream_closed : ∃ s client, Run (step plainEnvironment) Initial (Careful plainEnvironment) s ∧
    s.Settled ∧ s.clients 0 = some client ∧ s.accepted plainEnvironment client.token = false ∧
      client.isOpen = false := by
  have hrun : Run (step plainEnvironment) Initial (Careful plainEnvironment) (after rechecked checks) := by
    refine run_rechecked.of_runLabels (fun l hl s => ?_)
      (show runLabels (step plainEnvironment) rechecked checks = some (after rechecked checks) from rfl)
    simp only [checks, revokes, List.cons_append, List.nil_append, List.mem_cons, List.not_mem_nil, or_false] at hl
    rcases hl with rfl | rfl | rfl | rfl | rfl | rfl | rfl | rfl | rfl <;> trivial
  have hsettled : (after rechecked checks).Settled := by
    refine ⟨⟨2, _, rfl, rfl, rfl, rfl⟩, fun k => ?_⟩
    show Function.update (Function.update (fun _ => none) 0 _) 0 none k = none
    simp
  obtain ⟨client, hclient, hrecheck, hrefused⟩ : ∃ client, (after rechecked checks).clients 0 = some client ∧
      client.recheck = none ∧ (after rechecked checks).accepted plainEnvironment client.token = false :=
    ⟨_, rfl, rfl, rfl⟩
  refine ⟨_, client, hrun, hsettled, hclient, hrefused, ?_⟩
  by_contra ho
  have := revoked_lose_stream hrun hsettled 0 client hclient (by simpa using ho) hrecheck
  simp [hrefused] at this

open Revocation in
/-- The pass a fault cuts short is not repeated, and the client stays. -/
theorem revoked_lose_stream_cut_short : ∃ s client, Run (step plainEnvironment) Initial anyLabel s ∧ s.Settled ∧
    s.clients 0 = some client ∧ client.isOpen = true ∧ client.recheck = none ∧
      s.accepted plainEnvironment client.token = false := by
  have hrun : Run (step plainEnvironment) Initial anyLabel (after rechecked faults) :=
    run_rechecked.any.of_runLabels (fun _ _ _ => trivial)
      (show runLabels (step plainEnvironment) rechecked faults = some (after rechecked faults) from rfl)
  refine ⟨_, _, hrun, ⟨⟨4, _, rfl, rfl, rfl, rfl⟩, fun k => ?_⟩, rfl, rfl, rfl, rfl⟩
  show Function.update (Function.update (fun _ => none) 0 _) 0 none k = none
  simp

end EventBridge

end RecordNode
