import RecordNode.Foundation.OrderedMap
import RecordNode.Foundation.Run
import RecordNode.Ingest.Fingerprint

/-! # The tool host

The node runs its tools in a host process and speaks with it over a channel. A call waits
under its id until a reply with that id comes back; when the host fails, everything that
waits on it fails with it and the next call starts another. A tool that cannot be started
may answer twice, first with the error and then when its pipes close. -/

namespace RecordNode

open Foundation

structure ToolRequest where
  id : ℕ
  command : String
  args : List String
  countStdout : Bool
deriving DecidableEq

inductive ToolResponse where
  | startError (id : ℕ) (message : String)
  | output (id : ℕ) (exitCode : ℤ) (stdout stderr : String) (stdoutBytes : Option ℕ)
deriving DecidableEq

def ToolResponse.id : ToolResponse → ℕ
  | startError id _ => id
  | output id _ _ _ _ => id

def ToolResponse.isStartError : ToolResponse → Bool
  | startError _ _ => true
  | output _ _ _ _ _ => false

inductive Settlement where
  | resolved (response : ToolResponse)
  | rejected (error : IngestError)
deriving DecidableEq

/-- A host as the node sees it, with its process: requests on the way, tools running and
replies on the way back. -/
structure ToolHost where
  pending : OrderedMap ℕ String
  held : Bool
  /-- `fail_all` has run for it. -/
  failed : Bool
  alive : Bool
  inbox : List ToolRequest
  running : List ToolRequest
  outbox : List ToolResponse

/-- The executor in `via_host`; what is sent to a dead process is lost. -/
def ToolHost.send (t : ToolHost) (request : ToolRequest) : ToolHost :=
  { t with
    pending := t.pending.set request.id request.command
    held := true
    inbox := if t.alive then t.inbox ++ [request] else t.inbox }

structure ToolNode where
  host : Option ℕ
  nextId : ℕ
  hosts : List ToolHost
  /-- Every request made, every reply a tool gave and every promise settled so far. -/
  calls : List ToolRequest
  replied : List (ToolRequest × ToolResponse)
  settled : List (ℕ × Settlement)

inductive ToolLabel where
  | call (command : String) (args : List String) (countStdout : Bool)
  | receive (h : ℕ)
  | reply (h k : ℕ) (response : ToolResponse) (last : Bool)
  | message (h : ℕ)
  | die (h : ℕ)
  | fail (h : ℕ) (message : String)

namespace ToolNode

def empty : ToolNode := ⟨none, 0, [], [], [], []⟩

def startHost : ToolHost := ⟨.empty, true, false, true, [], [], []⟩

/-- `host ??= start_host()`. -/
def withHost (n : ToolNode) : ToolNode × ℕ :=
  match n.host with
  | some h => (n, h)
  | none => ({ n with host := some n.hosts.length, hosts := n.hosts ++ [startHost] }, n.hosts.length)

def viaHost (n : ToolNode) (request : ToolRequest) : Option ToolNode :=
  let (n, h) := n.withHost
  match n.hosts[h]? with
  | none => none
  | some t => some { n with hosts := n.hosts.set h (t.send request), calls := n.calls ++ [request], nextId := n.nextId + 1 }

/-- The handler of `message`. -/
def onMessage (n : ToolNode) (h : ℕ) (t : ToolHost) (response : ToolResponse) : ToolNode :=
  match t.pending.get response.id with
  | none => { n with hosts := n.hosts.set h t }
  | some _ =>
    let pending := t.pending.delete response.id
    { n with
      hosts := n.hosts.set h { t with pending := pending, held := if pending.items = [] then false else t.held }
      settled := n.settled ++ [(response.id, .resolved response)] }

def hostError (command message : String) : IngestError := ⟨.toolFailed, s!"{command}: {message}"⟩

def failAll (n : ToolNode) (h : ℕ) (t : ToolHost) (message : String) : ToolNode :=
  { n with
    host := if n.host = some h then none else n.host
    hosts := n.hosts.set h { t with pending := .empty, failed := true }
    settled := n.settled ++
      t.pending.items.map fun p => (p.1, .rejected (hostError p.2 message)) }

def step (n : ToolNode) : ToolLabel → Option ToolNode
  | .call command args countStdout => n.viaHost ⟨n.nextId, command, args, countStdout⟩
  | .receive h =>
    match n.hosts[h]? with
    | none => none
    | some t =>
      match t.inbox with
      | [] => none
      | request :: rest =>
        some { n with hosts := n.hosts.set h { t with inbox := rest, running := t.running ++ [request] } }
  | .reply h k response last =>
    match n.hosts[h]? with
    | none => none
    | some t =>
      match t.running[k]? with
      | none => none
      | some request =>
        if response.id = request.id ∧ (last = true ∨ request.countStdout = true ∧ response.isStartError = true) then
          some { n with
            hosts := n.hosts.set h { t with
              running := if last then t.running.eraseIdx k else t.running
              outbox := t.outbox ++ [response] }
            replied := n.replied ++ [(request, response)] }
        else none
  | .message h =>
    match n.hosts[h]? with
    | none => none
    | some t =>
      match t.outbox with
      | [] => none
      | response :: rest => some (n.onMessage h { t with outbox := rest } response)
  | .die h =>
    match n.hosts[h]? with
    | none => none
    | some t => some { n with hosts := n.hosts.set h { t with alive := false, inbox := [], running := [] } }
  | .fail h message =>
    match n.hosts[h]? with
    | none => none
    | some t => some (n.failAll h t message)

/-! ## The invariant -/

/-- What waits on a host was called, and a live process has it to do, under way or answered. -/
structure HostSound (calls : List ToolRequest) (replied : List (ToolRequest × ToolResponse)) (t : ToolHost) : Prop where
  pending : ∀ id c, t.pending.get id = some c → ∃ r ∈ calls, r.id = id ∧ r.command = c
  work : t.alive = true → ∀ id ∈ t.pending.keys,
    id ∈ t.inbox.map ToolRequest.id ∨ id ∈ t.running.map ToolRequest.id ∨ id ∈ t.outbox.map ToolResponse.id
  inbox : ∀ r ∈ t.inbox, r ∈ calls
  running : ∀ r ∈ t.running, r ∈ calls
  outbox : ∀ p ∈ t.outbox, ∃ r, (r, p) ∈ replied
  failed : t.failed = true → t.pending.items = []

/-- The process of a host that has not failed is held open while something waits on it. -/
def HeldRight (t : ToolHost) : Prop := t.failed = false → (t.held = true ↔ t.pending.items ≠ [])

def pendingIds (n : ToolNode) : List ℕ := n.hosts.flatMap fun t => t.pending.keys

/-- What a settled promise was settled with. -/
def SettledRight (n : ToolNode) (id : ℕ) : Settlement → Prop
  | .resolved p => p.id = id ∧ ∃ r, (r, p) ∈ n.replied
  | .rejected e => (∃ t ∈ n.hosts, t.failed = true) ∧
      ∃ r ∈ n.calls, r.id = id ∧ ∃ message, e = hostError r.command message

structure Sound (n : ToolNode) : Prop where
  hosts : ∀ t ∈ n.hosts, HostSound n.calls n.replied t ∧ HeldRight t
  current : ∀ h, n.host = some h → ∃ t, n.hosts[h]? = some t ∧ t.failed = false
  calls : n.calls.map ToolRequest.id = List.range n.nextId
  once : (n.pendingIds ++ n.settled.map Prod.fst).Perm (List.range n.nextId)
  replied : ∀ p ∈ n.replied, p.1 ∈ n.calls ∧ p.2.id = p.1.id
  settled : ∀ p ∈ n.settled, SettledRight n p.1 p.2

section Update
variable {n m : ToolNode} {h : ℕ} {t u : ToolHost}

theorem HostSound.mono {calls more : List ToolRequest} {replied later : List (ToolRequest × ToolResponse)}
    (hs : HostSound calls replied t) (hcalls : ∀ r ∈ calls, r ∈ more) (hreplied : ∀ p ∈ replied, p ∈ later) :
    HostSound more later t where
  pending := by
    intro id c hget
    obtain ⟨r, hr, hid⟩ := hs.pending id c hget
    exact ⟨r, hcalls r hr, hid⟩
  work := hs.work
  inbox := fun r hr => hcalls r (hs.inbox r hr)
  running := fun r hr => hcalls r (hs.running r hr)
  outbox := by
    intro p hp
    obtain ⟨r, hr⟩ := hs.outbox p hp
    exact ⟨r, hreplied _ hr⟩
  failed := hs.failed

/-- A host's place in the list, for both what stands there and what comes there. -/
theorem exists_around {hosts : List ToolHost} (ht : hosts[h]? = some t) :
    ∃ before after, hosts = before ++ t :: after ∧ ∀ u, hosts.set h u = before ++ u :: after := by
  obtain ⟨hlt, rfl⟩ := List.getElem?_eq_some_iff.mp ht
  refine ⟨hosts.take h, hosts.drop (h + 1), ?_, ?_⟩
  · rw [← List.drop_eq_getElem_cons hlt, List.take_append_drop]
  · intro u
    exact List.set_eq_take_append_cons_drop.trans (if_pos hlt)

theorem SettledRight.mono {id : ℕ} {o : Settlement} (hs : SettledRight n id o) (hcalls : ∀ r ∈ n.calls, r ∈ m.calls)
    (hreplied : ∀ p ∈ n.replied, p ∈ m.replied)
    (hfailed : (∃ t ∈ n.hosts, t.failed = true) → ∃ t ∈ m.hosts, t.failed = true) : SettledRight m id o := by
  cases o with
  | resolved p =>
    obtain ⟨hid, r, hr⟩ := hs
    exact ⟨hid, r, hreplied _ hr⟩
  | rejected e =>
    obtain ⟨hhost, r, hr, hmessage⟩ := hs
    exact ⟨hfailed hhost, r, hcalls r hr, hmessage⟩

/-- A step at one host: what waits there or was settled waits there or is settled. -/
theorem Sound.update (hs : Sound n) (ht : n.hosts[h]? = some t) (hhosts : m.hosts = n.hosts.set h u)
    (hcalls : m.calls = n.calls) (hnext : m.nextId = n.nextId) (hreplied : ∀ p ∈ n.replied, p ∈ m.replied)
    (hnew : ∀ p ∈ m.replied, p ∉ n.replied → p.1 ∈ n.calls ∧ p.2.id = p.1.id)
    (hu : HostSound m.calls m.replied u ∧ HeldRight u)
    (hcurrent : ∀ k, m.host = some k → n.host = some k ∧ (k = h → u.failed = t.failed))
    (hfailed : t.failed = true → u.failed = true)
    (honce : (u.pending.keys ++ m.settled.map Prod.fst).Perm (t.pending.keys ++ n.settled.map Prod.fst))
    (hsettled : ∀ p ∈ m.settled, p ∉ n.settled → SettledRight m p.1 p.2) : Sound m := by
  obtain ⟨before, after, hbefore, hset⟩ := exists_around ht
  rw [hset u] at hhosts
  have hsame : ∀ r ∈ n.calls, r ∈ m.calls := fun r hr => hcalls ▸ hr
  refine ⟨?_, ?_, hcalls ▸ hnext ▸ hs.calls, ?_, ?_, ?_⟩
  · intro v hv
    rw [hhosts] at hv
    by_cases hvu : v = u
    · exact hvu ▸ hu
    · have hold : v ∈ n.hosts := by
        rw [hbefore]
        simp only [List.mem_append, List.mem_cons, hvu, false_or] at hv ⊢
        tauto
      exact ⟨(hs.hosts v hold).1.mono hsame hreplied, (hs.hosts v hold).2⟩
  · intro k hk
    obtain ⟨hold, hsamefailed⟩ := hcurrent k hk
    obtain ⟨v, hv, hvfailed⟩ := hs.current k hold
    rw [hhosts, ← hset u, List.getElem?_set]
    split
    · next heq =>
      subst heq
      have hlt := (List.getElem?_eq_some_iff.mp ht).1
      rw [if_pos hlt]
      obtain rfl := Option.some_inj.mp (hv.symm.trans ht)
      exact ⟨u, rfl, (hsamefailed rfl).trans hvfailed⟩
    · exact ⟨v, hv, hvfailed⟩
  · refine List.Perm.trans ?_ (hnext ▸ hs.once)
    rw [List.perm_iff_count] at honce ⊢
    intro id
    have hcount := honce id
    simp only [pendingIds, hhosts, hbefore, List.flatMap_append, List.flatMap_cons, List.count_append] at hcount ⊢
    omega
  · intro p hp
    by_cases hold : p ∈ n.replied
    · exact ⟨hsame _ (hs.replied p hold).1, (hs.replied p hold).2⟩
    · exact ⟨hsame _ (hnew p hp hold).1, (hnew p hp hold).2⟩
  · intro p hp
    by_cases hold : p ∈ n.settled
    · refine (hs.settled p hold).mono hsame hreplied ?_
      rintro ⟨v, hv, hvfailed⟩
      rw [hbefore] at hv
      rw [hhosts]
      simp only [List.mem_append, List.mem_cons] at hv ⊢
      rcases hv with hv | rfl | hv
      · exact ⟨v, .inl hv, hvfailed⟩
      · exact ⟨u, .inr (.inl rfl), hfailed hvfailed⟩
      · exact ⟨v, .inr (.inr hv), hvfailed⟩
    · exact hsettled p hp hold

/-- A step that only moves requests and replies along. -/
theorem Sound.move (hs : Sound n) (ht : n.hosts[h]? = some t) (hu : HostSound n.calls n.replied u)
    (hpending : u.pending = t.pending) (hheld : u.held = t.held) (hfailed : u.failed = t.failed) :
    Sound { n with hosts := n.hosts.set h u } := by
  have hmem := List.mem_of_getElem? ht
  refine hs.update ht rfl rfl rfl (fun _ hp => hp) (fun p hp hnot => absurd hp hnot) ⟨hu, ?_⟩
    (fun _ hk => ⟨hk, fun _ => hfailed⟩) (fun hf => hfailed.trans hf) ?_ (fun p hp hnot => absurd hp hnot)
  · unfold HeldRight
    rw [hfailed, hheld, hpending]
    exact (hs.hosts t hmem).2
  · rw [hpending]

end Update

/-! ## Steps -/

section Steps
variable {n m : ToolNode} {h : ℕ} {t : ToolHost}

/-- The first reply is delivered: whoever waits under its id gets it, otherwise it is dropped. -/
theorem Sound.onMessage (hs : Sound n) (ht : n.hosts[h]? = some t) {response : ToolResponse} {rest : List ToolResponse}
    (houtbox : t.outbox = response :: rest) : Sound (n.onMessage h { t with outbox := rest } response) := by
  have hmem := List.mem_of_getElem? ht
  obtain ⟨hhost, hheld⟩ := hs.hosts t hmem
  have hrest : ∀ p ∈ rest, ∃ r, (r, p) ∈ n.replied := fun p hp => hhost.outbox p (houtbox ▸ List.mem_cons_of_mem _ hp)
  unfold ToolNode.onMessage
  cases hget : t.pending.get response.id with
  | none =>
    simp only
    refine hs.move ht ⟨hhost.pending, ?_, hhost.inbox, hhost.running, hrest, hhost.failed⟩ rfl rfl rfl
    intro halive id hid
    rcases hhost.work halive id hid with hwork | hwork | hwork
    · exact .inl hwork
    · exact .inr (.inl hwork)
    · rw [houtbox, List.map_cons, List.mem_cons] at hwork
      rcases hwork with rfl | hwork
      · obtain ⟨c, hc⟩ := (t.pending.mem_keys_iff _).mp hid
        rw [hget] at hc
        cases hc
      · exact .inr (.inr hwork)
  | some command =>
    simp only
    have hdelete : ∀ {id c}, (t.pending.delete response.id).get id = some c → id ≠ response.id ∧ t.pending.get id = some c :=
      fun hc => t.pending.get_delete_eq_some.mp hc
    have hperm := t.pending.perm_keys_delete hget
    refine hs.update (u := { t with
      outbox := rest
      pending := t.pending.delete response.id
      held := if (t.pending.delete response.id).items = [] then false else t.held }) ht rfl rfl rfl (fun _ hp => hp)
      (fun p hp hnot => absurd hp hnot) ⟨⟨?_, ?_, hhost.inbox, hhost.running, hrest, ?_⟩, ?_⟩
      (fun _ hk => ⟨hk, fun _ => rfl⟩) id ?_ ?_
    · intro id c hc
      exact hhost.pending id c (hdelete hc).2
    · intro halive id hid
      obtain ⟨c, hc⟩ := ((t.pending.delete response.id).mem_keys_iff id).mp hid
      obtain ⟨hne, hc⟩ := hdelete hc
      rcases hhost.work halive id ((t.pending.mem_keys_iff id).mpr ⟨c, hc⟩) with hwork | hwork | hwork
      · exact .inl hwork
      · exact .inr (.inl hwork)
      · rw [houtbox, List.map_cons, List.mem_cons] at hwork
        exact .inr (.inr (hwork.resolve_left hne))
    · intro hfailed
      have hempty : t.pending.items = [] := hhost.failed hfailed
      have hkeys : t.pending.keys = [] := by rw [OrderedMap.keys, hempty, List.map_nil]
      rw [hkeys] at hperm
      cases hperm.nil_eq
    · intro hfailed
      by_cases hempty : (t.pending.delete response.id).items = []
      · simp [hempty]
      · have hpending : t.pending.items ≠ [] := by
          intro hnil
          rw [OrderedMap.get, hnil] at hget
          cases hget
        simp only [hempty, if_false, ne_eq, not_false_eq_true, iff_true]
        exact (hheld hfailed).mpr hpending
    · simp only [List.map_append, List.map_cons, List.map_nil]
      rw [List.perm_iff_count] at hperm ⊢
      intro id
      have hcount := hperm id
      simp only [List.count_append, List.count_cons, List.count_nil] at hcount ⊢
      omega
    · intro p hp hnot
      rcases List.mem_append.mp hp with hold | hnew
      · exact absurd hold hnot
      · rw [List.mem_singleton.mp hnew]
        exact ⟨rfl, hhost.outbox response (houtbox ▸ List.mem_cons_self)⟩

theorem Sound.failAll (hs : Sound n) (ht : n.hosts[h]? = some t) (message : String) : Sound (n.failAll h t message) := by
  have hmem := List.mem_of_getElem? ht
  obtain ⟨hhost, -⟩ := hs.hosts t hmem
  refine hs.update (u := { t with pending := .empty, failed := true }) ht rfl rfl rfl (fun _ hp => hp)
    (fun p hp hnot => absurd hp hnot) ⟨⟨?_, ?_, hhost.inbox, hhost.running, hhost.outbox, fun _ => rfl⟩, ?_⟩ ?_
    (fun _ => rfl) ?_ ?_
  · intro id c hc
    cases hc
  · intro _ id hid
    cases hid
  · intro hfailed
    cases hfailed
  · intro k hk
    simp only [ToolNode.failAll] at hk
    split at hk
    · cases hk
    · next hne =>
      refine ⟨hk, ?_⟩
      rintro rfl
      exact absurd hk hne
  · have hids : (t.pending.items.map fun p => (p.1, Settlement.rejected (hostError p.2 message))).map Prod.fst =
        t.pending.keys := by
      rw [List.map_map]
      rfl
    simp only [ToolNode.failAll, List.map_append, hids]
    have hcomm : (n.settled.map Prod.fst ++ t.pending.keys).Perm (t.pending.keys ++ n.settled.map Prod.fst) :=
      List.perm_append_comm
    exact hcomm
  · intro p hp hnot
    simp only [ToolNode.failAll] at hp
    rcases List.mem_append.mp hp with hold | hnew
    · exact absurd hold hnot
    · obtain ⟨q, hq, rfl⟩ := List.mem_map.mp hnew
      obtain ⟨r, hr, hid, hcommand⟩ := hhost.pending q.1 q.2 ((t.pending.get_eq_some_iff _ _).mpr hq)
      have hlt := (List.getElem?_eq_some_iff.mp ht).1
      refine ⟨⟨{ t with pending := .empty, failed := true }, ?_, rfl⟩, r, hr, hid, message, by rw [hcommand]⟩
      exact List.mem_of_getElem? (by rw [ToolNode.failAll, List.getElem?_set_self hlt])

/-- The ids in use are those of the calls, so the next one is free. -/
theorem Sound.fresh (hs : Sound n) (ht : t ∈ n.hosts) : t.pending.get n.nextId = none := by
  cases hget : t.pending.get n.nextId with
  | none => rfl
  | some command =>
    obtain ⟨r, hr, hid, -⟩ := (hs.hosts t ht).1.pending n.nextId command hget
    have hmem : n.nextId ∈ n.calls.map ToolRequest.id := hid ▸ List.mem_map_of_mem hr
    rw [hs.calls] at hmem
    exact absurd (List.mem_range.mp hmem) (Nat.lt_irrefl _)

theorem hostSound_send {calls : List ToolRequest} {replied : List (ToolRequest × ToolResponse)}
    (hhost : HostSound calls replied t) (hfailed : t.failed = false) (request : ToolRequest)
    (hfresh : t.pending.get request.id = none) :
    HostSound (calls ++ [request]) replied (t.send request) ∧ HeldRight (t.send request) := by
  have hkeys : (t.pending.set request.id request.command).keys = t.pending.keys ++ [request.id] :=
    t.pending.keys_set hfresh _
  have hold : ∀ r ∈ calls, r ∈ calls ++ [request] := fun r hr => List.mem_append_left _ hr
  have hlast : request ∈ calls ++ [request] := List.mem_append_right _ (List.mem_singleton_self _)
  refine ⟨⟨?_, ?_, ?_, fun r hr => hold r (hhost.running r hr), hhost.outbox, ?_⟩, ?_⟩
  · intro id c hc
    simp only [ToolHost.send, OrderedMap.get_set] at hc
    split at hc
    · next heq =>
      cases hc
      exact ⟨request, hlast, heq.symm, rfl⟩
    · obtain ⟨r, hr, hid⟩ := hhost.pending id c hc
      exact ⟨r, hold r hr, hid⟩
  · intro halive id hid
    have halive : t.alive = true := halive
    have hinbox : (t.send request).inbox = t.inbox ++ [request] := by rw [ToolHost.send, halive, if_pos rfl]
    rw [hinbox]
    change id ∈ (t.pending.set request.id request.command).keys at hid
    rw [hkeys] at hid
    simp only [List.mem_append, List.mem_singleton, List.map_append, List.map_cons, List.map_nil] at hid ⊢
    rcases hid with hid | rfl
    · rcases hhost.work halive id hid with hwork | hwork | hwork
      · exact .inl (.inl hwork)
      · exact .inr (.inl hwork)
      · exact .inr (.inr hwork)
    · exact .inl (.inr rfl)
  · intro r hr
    simp only [ToolHost.send] at hr
    split at hr
    · rcases List.mem_append.mp hr with hr | hr
      · exact hold r (hhost.inbox r hr)
      · rw [List.mem_singleton.mp hr]
        exact hlast
    · exact hold r (hhost.inbox r hr)
  · intro h
    cases hfailed.symm.trans h
  · intro _
    refine ⟨fun _ hnil => ?_, fun _ => rfl⟩
    have hnone : (t.pending.set request.id request.command).keys = [] := by
      rw [OrderedMap.keys]
      exact congrArg _ hnil
    rw [hkeys] at hnone
    simp at hnone

/-- A request goes to one host among the others; that host is the current one from now on. -/
theorem Sound.send (hs : Sound n) (before after : List ToolHost) (hothers : ∀ u ∈ before ++ after, u ∈ n.hosts)
    (hkept : ∀ u ∈ n.hosts, u.failed = true → u ∈ before ++ after)
    (hpending : (before ++ t :: after).flatMap (fun u => u.pending.keys) = n.pendingIds)
    (hhost : HostSound n.calls n.replied t) (hfailed : t.failed = false) (hfresh : t.pending.get n.nextId = none)
    {request : ToolRequest} (hid : request.id = n.nextId) :
    Sound { n with
      host := some before.length
      hosts := before ++ t.send request :: after
      calls := n.calls ++ [request]
      nextId := n.nextId + 1 } where
  hosts := by
    intro u hu
    rcases List.mem_append.mp hu with hu | hu
    · obtain ⟨husound, huheld⟩ := hs.hosts u (hothers u (List.mem_append_left _ hu))
      exact ⟨husound.mono (fun r hr => List.mem_append_left _ hr) fun _ hp => hp, huheld⟩
    · rcases List.mem_cons.mp hu with rfl | hu
      · exact hostSound_send hhost hfailed request (hid ▸ hfresh)
      · obtain ⟨husound, huheld⟩ := hs.hosts u (hothers u (List.mem_append_right _ hu))
        exact ⟨husound.mono (fun r hr => List.mem_append_left _ hr) fun _ hp => hp, huheld⟩
  current := by
    intro k hk
    obtain rfl := Option.some_inj.mp hk
    exact ⟨t.send request, by simp, hfailed⟩
  calls := by
    simp only [List.map_append, List.map_singleton, hs.calls, hid, List.range_succ]
  once := by
    have hkeys : (t.send request).pending.keys = t.pending.keys ++ [n.nextId] := hid ▸ t.pending.keys_set (hid ▸ hfresh) _
    have honce := hs.once
    rw [List.perm_iff_count] at honce ⊢
    intro id
    have hcount := honce id
    rw [← hpending] at hcount
    simp only [ToolNode.pendingIds, List.flatMap_append, List.flatMap_cons, List.count_append, hkeys,
      List.range_succ] at hcount ⊢
    omega
  replied := fun p hp => ⟨List.mem_append_left _ (hs.replied p hp).1, (hs.replied p hp).2⟩
  settled := by
    intro p hp
    refine (hs.settled p hp).mono (fun r hr => List.mem_append_left _ hr) (fun _ hq => hq) ?_
    rintro ⟨u, hu, hufailed⟩
    have hmem := hkept u hu hufailed
    refine ⟨u, ?_, hufailed⟩
    simp only [List.mem_append, List.mem_cons] at hmem ⊢
    tauto

theorem hostSound_startHost (calls : List ToolRequest) (replied : List (ToolRequest × ToolResponse)) :
    HostSound calls replied startHost where
  pending := by
    intro _ _ hc
    cases hc
  work := fun _ _ hid => absurd hid List.not_mem_nil
  inbox := fun _ hr => absurd hr List.not_mem_nil
  running := fun _ hr => absurd hr List.not_mem_nil
  outbox := fun _ hp => absurd hp List.not_mem_nil
  failed := fun _ => rfl

theorem Sound.viaHost (hs : Sound n) {request : ToolRequest} (hid : request.id = n.nextId)
    (hm : n.viaHost request = some m) : Sound m := by
  cases hhost : n.host with
  | none =>
    have hget : (n.hosts ++ [startHost])[n.hosts.length]? = some startHost := by simp
    have hset : (n.hosts ++ [startHost]).set n.hosts.length (startHost.send request) =
        n.hosts ++ [startHost.send request] := by simp
    simp only [ToolNode.viaHost, withHost, hhost, hget, hset, Option.some.injEq] at hm
    subst hm
    refine hs.send n.hosts [] ?_ ?_ ?_ (hostSound_startHost _ _) rfl rfl hid
    · simp
    · exact fun u hu _ => List.mem_append_left _ hu
    · have hempty : startHost.pending.keys = [] := rfl
      simp [ToolNode.pendingIds, hempty]
  | some h =>
    obtain ⟨t, ht, hfailed⟩ := hs.current h hhost
    obtain ⟨hlt, htget⟩ := List.getElem?_eq_some_iff.mp ht
    have hmem := List.mem_of_getElem? ht
    simp only [ToolNode.viaHost, withHost, hhost, ht, Option.some.injEq] at hm
    subst hm
    have hsplit : n.hosts = n.hosts.take h ++ t :: n.hosts.drop (h + 1) := by
      rw [← htget, ← List.drop_eq_getElem_cons hlt, List.take_append_drop]
    have hset : n.hosts.set h (t.send request) = n.hosts.take h ++ t.send request :: n.hosts.drop (h + 1) :=
      List.set_eq_take_append_cons_drop.trans (if_pos hlt)
    have hlength : (n.hosts.take h).length = h := by
      rw [List.length_take]
      omega
    have hsent := hs.send (n.hosts.take h) (n.hosts.drop (h + 1)) ?_ ?_ ?_ (hs.hosts t hmem).1 hfailed (hs.fresh hmem) hid
    · rw [hlength, ← hset] at hsent
      exact hsent
    · intro u hu
      rcases List.mem_append.mp hu with hu | hu
      · exact List.mem_of_mem_take hu
      · exact List.mem_of_mem_drop hu
    · intro u hu hufailed
      rw [hsplit] at hu
      simp only [List.mem_append, List.mem_cons] at hu ⊢
      rcases hu with hu | rfl | hu
      · exact .inl hu
      · cases hfailed.symm.trans hufailed
      · exact .inr hu
    · rw [← hsplit]
      rfl

theorem Sound.receive (hs : Sound n) (ht : n.hosts[h]? = some t) {request : ToolRequest} {rest : List ToolRequest}
    (hinbox : t.inbox = request :: rest) :
    Sound { n with hosts := n.hosts.set h { t with inbox := rest, running := t.running ++ [request] } } := by
  obtain ⟨hhost, -⟩ := hs.hosts t (List.mem_of_getElem? ht)
  have hmem : ∀ r, r ∈ request :: rest → r ∈ n.calls := fun r hr => hhost.inbox r (hinbox ▸ hr)
  refine hs.move ht ⟨hhost.pending, ?_, ?_, ?_, hhost.outbox, hhost.failed⟩ rfl rfl rfl
  · intro halive id hid
    have hwork := hhost.work halive id hid
    rw [hinbox] at hwork
    simp only [List.map_cons, List.map_append, List.map_nil, List.mem_cons, List.mem_append, List.not_mem_nil, or_false]
      at hwork ⊢
    tauto
  · exact fun r hr => hmem r (List.mem_cons_of_mem _ hr)
  · intro r hr
    rcases List.mem_append.mp hr with hr | hr
    · exact hhost.running r hr
    · exact hmem r (List.mem_singleton.mp hr ▸ List.mem_cons_self)

theorem Sound.reply (hs : Sound n) (ht : n.hosts[h]? = some t) {k : ℕ} {request : ToolRequest}
    (hk : t.running[k]? = some request) {response : ToolResponse} (hid : response.id = request.id) (last : Bool) :
    Sound { n with
      hosts := n.hosts.set h { t with
        running := if last then t.running.eraseIdx k else t.running
        outbox := t.outbox ++ [response] }
      replied := n.replied ++ [(request, response)] } := by
  obtain ⟨hhost, hheld⟩ := hs.hosts t (List.mem_of_getElem? ht)
  obtain ⟨hlt, rfl⟩ := List.getElem?_eq_some_iff.mp hk
  have hsub : ∀ r ∈ (if last then t.running.eraseIdx k else t.running), r ∈ t.running := by
    intro r hr
    split at hr
    · exact List.mem_of_mem_eraseIdx hr
    · exact hr
  refine hs.update (u := { t with
      running := if last then t.running.eraseIdx k else t.running
      outbox := t.outbox ++ [response] }) ht rfl rfl rfl (fun _ hp => List.mem_append_left _ hp) ?_
    ⟨⟨hhost.pending, ?_, hhost.inbox, fun r hr => hhost.running r (hsub r hr), ?_, hhost.failed⟩, hheld⟩
    (fun _ hc => ⟨hc, fun _ => rfl⟩) (fun hf => hf) (List.Perm.refl _) (fun p hp hnot => absurd hp hnot)
  · intro p hp hnot
    rcases List.mem_append.mp hp with hold | hnew
    · exact absurd hold hnot
    · rw [List.mem_singleton.mp hnew]
      exact ⟨hhost.running _ (List.getElem_mem hlt), hid⟩
  · intro halive id hpending
    have hwork := hhost.work halive id hpending
    simp only [List.map_append, List.map_cons, List.map_nil, List.mem_append, List.mem_singleton] at hwork ⊢
    rcases hwork with hwork | hwork | hwork
    · exact .inl hwork
    · -- a job that has given its last answer has it in the outbox
      have hperm : (t.running[k] :: t.running.eraseIdx k).Perm t.running := List.getElem_cons_eraseIdx_perm hlt
      have hmem := (hperm.map ToolRequest.id).mem_iff.mpr hwork
      rw [List.map_cons, List.mem_cons, ← hid] at hmem
      split
      · tauto
      · exact .inr (.inl hwork)
    · exact .inr (.inr (.inl hwork))
  · intro p hp
    rcases List.mem_append.mp hp with hold | hnew
    · obtain ⟨r, hr⟩ := hhost.outbox p hold
      exact ⟨r, List.mem_append_left _ hr⟩
    · rw [List.mem_singleton.mp hnew]
      exact ⟨_, List.mem_append_right _ (List.mem_singleton_self _)⟩

theorem Sound.die (hs : Sound n) (ht : n.hosts[h]? = some t) :
    Sound { n with hosts := n.hosts.set h { t with alive := false, inbox := [], running := [] } } := by
  obtain ⟨hhost, -⟩ := hs.hosts t (List.mem_of_getElem? ht)
  refine hs.move ht ⟨hhost.pending, ?_, ?_, ?_, hhost.outbox, hhost.failed⟩ rfl rfl rfl
  · intro halive
    cases halive
  · exact fun _ hr => absurd hr List.not_mem_nil
  · exact fun _ hr => absurd hr List.not_mem_nil

theorem Sound.step (hs : Sound n) {l : ToolLabel} (hm : n.step l = some m) : Sound m := by
  cases l with
  | call command args countStdout => exact hs.viaHost rfl hm
  | receive h =>
    simp only [ToolNode.step] at hm
    split at hm
    · cases hm
    · next t ht =>
      split at hm
      · cases hm
      · next request rest hinbox =>
        obtain rfl := Option.some_inj.mp hm
        exact hs.receive ht hinbox
  | reply h k response last =>
    simp only [ToolNode.step] at hm
    split at hm
    · cases hm
    · next t ht =>
      split at hm
      · cases hm
      · next request hk =>
        split at hm
        · next hguard =>
          obtain rfl := Option.some_inj.mp hm
          exact hs.reply ht hk hguard.1 last
        · cases hm
  | message h =>
    simp only [ToolNode.step] at hm
    split at hm
    · cases hm
    · next t ht =>
      split at hm
      · cases hm
      · next response rest houtbox =>
        obtain rfl := Option.some_inj.mp hm
        exact hs.onMessage ht houtbox
  | die h =>
    simp only [ToolNode.step] at hm
    split at hm
    · cases hm
    · next t ht =>
      obtain rfl := Option.some_inj.mp hm
      exact hs.die ht
  | fail h message =>
    simp only [ToolNode.step] at hm
    split at hm
    · cases hm
    · next t ht =>
      obtain rfl := Option.some_inj.mp hm
      exact hs.failAll ht message

theorem sound_empty : Sound empty where
  hosts := fun _ ht => absurd ht List.not_mem_nil
  current := by
    intro h hh
    cases hh
  calls := rfl
  once := List.Perm.refl _
  replied := fun _ hp => absurd hp List.not_mem_nil
  settled := fun _ hp => absurd hp List.not_mem_nil

theorem sound_run (h : Run step (· = empty) anyLabel n) : Sound n := by
  refine h.invariant ?_ fun _ _ _ hs _ hm => hs.step hm
  rintro _ rfl
  exact sound_empty

end Steps

end ToolNode

/-- Whatever the order of messages, deaths and failures: every call made is settled, or waits
on one host, and it is settled once; a result is a reply the call's own tool gave, an error
names the call's own command and some host has failed. What waits on a host whose process
lives is queued, under way or answered; nothing waits on a failed one; and one that has not
failed is held open exactly while something waits on it. -/
theorem tool_host_calls {n : ToolNode} (h : Run ToolNode.step (· = ToolNode.empty) anyLabel n) :
    ((n.hosts.flatMap fun t => t.pending.keys) ++ n.settled.map Prod.fst).Perm (n.calls.map ToolRequest.id) ∧
      (n.calls.map ToolRequest.id).Nodup ∧
      (∀ id p, (id, .resolved p) ∈ n.settled → ∃ r ∈ n.calls, r.id = id ∧ (r, p) ∈ n.replied) ∧
      (∀ id e, (id, .rejected e) ∈ n.settled → (∃ t ∈ n.hosts, t.failed = true) ∧
        ∃ r ∈ n.calls, r.id = id ∧ ∃ message, e = ToolNode.hostError r.command message) ∧
      ∀ t ∈ n.hosts,
        (t.alive = true → ∀ id ∈ t.pending.keys,
          id ∈ t.inbox.map ToolRequest.id ∨ id ∈ t.running.map ToolRequest.id ∨ id ∈ t.outbox.map ToolResponse.id) ∧
        (t.failed = true → t.pending.items = []) ∧
        (t.failed = false → (t.held = true ↔ t.pending.items ≠ [])) := by
  have hs := ToolNode.sound_run h
  refine ⟨hs.calls ▸ hs.once, hs.calls ▸ List.nodup_range, ?_, fun id e he => hs.settled _ he, ?_⟩
  · intro id p hp
    obtain ⟨hid, r, hr⟩ := hs.settled _ hp
    obtain ⟨hcall, hown⟩ := hs.replied _ hr
    exact ⟨r, hcall, hown.symm.trans hid, hr⟩
  · intro t ht
    obtain ⟨hhost, hheld⟩ := hs.hosts t ht
    exact ⟨hhost.work, hhost.failed, hheld⟩

namespace ToolSample

def fpcalc : ToolRequest := ⟨0, "fpcalc", ["-json"], false⟩
def ffmpeg : ToolRequest := ⟨1, "ffmpeg", [], true⟩
def answer : ToolResponse := .output 0 0 "{}" "" none
def refusal : ToolResponse := .startError 1 "spawn ffmpeg ENOENT"

/-- One call answered and, while the host is lost under the next, one start error still on the way. -/
def node : ToolNode where
  host := none
  nextId := 2
  hosts := [⟨.empty, true, true, false, [], [], [refusal]⟩]
  calls := [fpcalc, ffmpeg]
  replied := [(fpcalc, answer), (ffmpeg, refusal)]
  settled := [(0, .resolved answer), (1, .rejected (ToolNode.hostError "ffmpeg" "the tool host exited (1)"))]

theorem run_node : runLabels ToolNode.step .empty
    [.call "fpcalc" ["-json"] false, .receive 0, .reply 0 0 answer true, .message 0, .call "ffmpeg" [] true, .receive 0,
      .reply 0 0 refusal false, .die 0, .fail 0 "the tool host exited (1)"] = some node := rfl

end ToolSample

theorem tool_host_calls_two :
    let n := ToolSample.node
    ((n.hosts.flatMap fun t => t.pending.keys) ++ n.settled.map Prod.fst).Perm (n.calls.map ToolRequest.id) ∧
      (n.calls.map ToolRequest.id).Nodup ∧
      (∀ id p, (id, .resolved p) ∈ n.settled → ∃ r ∈ n.calls, r.id = id ∧ (r, p) ∈ n.replied) ∧
      (∀ id e, (id, .rejected e) ∈ n.settled → (∃ t ∈ n.hosts, t.failed = true) ∧
        ∃ r ∈ n.calls, r.id = id ∧ ∃ message, e = ToolNode.hostError r.command message) ∧
      ∀ t ∈ n.hosts,
        (t.alive = true → ∀ id ∈ t.pending.keys,
          id ∈ t.inbox.map ToolRequest.id ∨ id ∈ t.running.map ToolRequest.id ∨ id ∈ t.outbox.map ToolResponse.id) ∧
        (t.failed = true → t.pending.items = []) ∧
        (t.failed = false → (t.held = true ↔ t.pending.items ≠ [])) :=
  tool_host_calls (.of_runLabels (.start rfl) (fun _ _ _ => trivial) ToolSample.run_node)

end RecordNode
