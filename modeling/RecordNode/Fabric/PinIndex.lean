import RecordNode.Fabric.PinTables
import RecordNode.Foundation.Run
import RecordNode.Foundation.Walk

/-! # Pinning over a block graph

The walk of a pin visits CIDs, while the tables are keyed on multihashes. Over a
fixed block graph, one call after another, the tables are compared with the pins
the callers made and have not taken back. -/

namespace RecordNode

open Foundation

/-- The decoders of the two linked codecs: the CIDs a block names. -/
structure Decoders where
  dagPb : Bytes → Checked (List Cid)
  dagCbor : Bytes → Checked (List Cid)

def linksOf (D : Decoders) (cid : Cid) (bytes : Bytes) : Checked (List Cid) :=
  if cid.code = rawCode then .ok []
  else if cid.code = dagPbCode then D.dagPb bytes
  else if cid.code = dagCborCode then D.dagCbor bytes
  else
    let code := String.ofList (Nat.toDigits 16 cid.code)
    let text := cid.format
    refuse .invalidCid s!"unsupported codec 0x{code}: {text}"

theorem code_of_linksOf {D : Decoders} {cid : Cid} {bytes : Bytes} {links : List Cid}
    (h : linksOf D cid bytes = .ok links) : cid.code = rawCode ∨ cid.code = dagPbCode ∨ cid.code = dagCborCode := by
  unfold linksOf at h
  split at h
  case isTrue hraw => exact Or.inl hraw
  case isFalse =>
    split at h
    case isTrue hpb => exact Or.inr (Or.inl hpb)
    case isFalse =>
      split at h
      case isTrue hcbor => exact Or.inr (Or.inr hcbor)
      case isFalse => cases h

/-- A block store, which keeps its blocks by multihash. -/
structure BlockGraph where
  blocks : OrderedMap Multihash Bytes
  decoders : Decoders

namespace BlockGraph

variable (g : BlockGraph)

def read (cid : Cid) : Option Bytes := g.blocks.get cid.multihash

def has (cid : Cid) : Bool := g.blocks.has cid.multihash

/-- The linked CIDs of the stored blocks. -/
def linkedCids : List Cid :=
  g.blocks.keys.flatMap fun m => [.v0 m, .v1 dagPbCode m, .v1 dagCborCode m]

theorem mem_linkedCids {cid : Cid} {bytes : Bytes} (hb : g.read cid = some bytes)
    (hc : cid.code = dagPbCode ∨ cid.code = dagCborCode) : cid ∈ g.linkedCids := by
  refine List.mem_flatMap.mpr ⟨cid.multihash, (g.blocks.mem_keys_iff _).mpr ⟨bytes, hb⟩, ?_⟩
  cases cid with
  | v0 m => simp [Cid.multihash]
  | v1 code m => rcases hc with rfl | rfl <;> simp [Cid.multihash]

/-- The linked CIDs a walk has still to visit. -/
def unwalked (visited : OrderedSet Cid) : ℕ := (g.linkedCids.filter fun c => decide (c ∉ visited)).length

end BlockGraph

def blockNotStored (cid : Cid) : ProtocolError :=
  let key := cid.format
  ⟨.contentUnavailable, s!"block not stored: {key}"⟩

/-- One `visit` of `walk_blocks`: the CIDs to visit under it. Only a recursive walk reads, and
it does not read raw leaves. -/
def visitBlock (D : Decoders) (read : Cid → Option Bytes) (has : Cid → Bool) (recursive : Bool)
    (next : Cid) : Checked (List Cid) :=
  if !recursive ∨ next.code = rawCode then
    if has next then .ok [] else .error (blockNotStored next)
  else
    match read next with
    | none => .error (blockNotStored next)
    | some bytes => linksOf D next bytes

def BlockGraph.visit (g : BlockGraph) (recursive : Bool) (next : Cid) : Checked (List Cid) :=
  visitBlock g.decoders g.read g.has recursive next

theorem visit_cases {g : BlockGraph} {recursive : Bool} {next : Cid} {links : List Cid}
    (h : g.visit recursive next = .ok links) : links = [] ∨ next ∈ g.linkedCids := by
  unfold BlockGraph.visit visitBlock at h
  split at h
  case isTrue =>
    split at h
    · exact Or.inl (Except.ok.inj h).symm
    · cases h
  case isFalse hleaf =>
    split at h
    case h_1 => cases h
    case h_2 bytes hb =>
      rcases code_of_linksOf h with hraw | hcode
      · exact absurd (Or.inr hraw) hleaf
      · exact Or.inr (g.mem_linkedCids hb hcode)

/-- The visits still to make, in their order: a visit is followed by those under it. -/
def walkVisits (g : BlockGraph) (recursive : Bool) : List Cid → OrderedSet Cid → Checked (OrderedSet Cid)
  | [], visited => .ok visited
  | next :: rest, visited =>
    if _hv : next ∈ visited then walkVisits g recursive rest visited
    else
      match _hl : g.visit recursive next with
      | .error e => .error e
      | .ok links => walkVisits g recursive (links ++ rest) (visited.add next)
termination_by work visited => (g.unwalked visited, work.length)
decreasing_by
  · exact Prod.Lex.right _ (by simp)
  · rcases visit_cases _hl with rfl | hlinked
    · exact Prod.Lex.right' _ (length_unseen_add_le _ _ _) (by simp)
    · exact Prod.Lex.left _ _ (length_unseen_add_lt _hv hlinked)

/-- The CID and, when recursive, every block under it, each once, root first. -/
def walkBlocks (g : BlockGraph) (cid : Cid) (recursive : Bool) : Checked (List Cid) :=
  (walkVisits g recursive [cid] .empty).map OrderedSet.items

/-- `pin` and `unpin` of the index, with nothing else under way. -/
def PinTables.pin (t : PinTables) (g : BlockGraph) (cid : Cid) (recursive : Bool) : Checked PinTables :=
  let kind := t.rootKind cid
  if kind = some true ∨ kind = some false ∧ !recursive then .ok t
  else (walkBlocks g cid recursive).map (t.countPin kind cid recursive)

def PinTables.unpin (t : PinTables) (g : BlockGraph) (cid : Cid) : Checked PinTables :=
  match t.rootKind cid with
  | none => .ok t
  | some kind => (walkBlocks g cid kind).map (t.countUnpin cid)

section Walk
variable {g : BlockGraph} {recursive : Bool}

theorem walkVisits_cons_mem {next : Cid} {visited : OrderedSet Cid} (hv : next ∈ visited) (rest : List Cid) :
    walkVisits g recursive (next :: rest) visited = walkVisits g recursive rest visited := by
  rw [walkVisits, dif_pos hv]

theorem walkVisits_cons_ok {next : Cid} {visited : OrderedSet Cid} (hv : next ∉ visited) {links : List Cid}
    (hl : g.visit recursive next = .ok links) (rest : List Cid) :
    walkVisits g recursive (next :: rest) visited =
      walkVisits g recursive (links ++ rest) (visited.add next) := by
  rw [walkVisits, dif_neg hv]
  split
  case h_1 e he => simp [hl] at he
  case h_2 links' he =>
    obtain rfl : links = links' := Except.ok.inj (hl.symm.trans he)
    rfl

theorem walkVisits_cons_error {next : Cid} {visited : OrderedSet Cid} (hv : next ∉ visited) {e : ProtocolError}
    (hl : g.visit recursive next = .error e) (rest : List Cid) :
    walkVisits g recursive (next :: rest) visited = .error e := by
  rw [walkVisits, dif_neg hv]
  split
  case h_1 e' he => rw [Except.error.inj (hl.symm.trans he)]
  case h_2 links he => simp [hl] at he

/-- A walk adds to what it has visited, in order. -/
theorem walkVisits_append {work : List Cid} {visited result : OrderedSet Cid}
    (h : walkVisits g recursive work visited = .ok result) : ∃ more, result.items = visited.items ++ more := by
  induction work, visited using walkVisits.induct g recursive with
  | case1 visited =>
    rw [walkVisits] at h
    exact ⟨[], by rw [List.append_nil, Except.ok.inj h]⟩
  | case2 next rest visited hv ih =>
    rw [walkVisits_cons_mem hv] at h
    exact ih h
  | case3 next rest visited hv e hl =>
    rw [walkVisits_cons_error hv hl] at h
    cases h
  | case4 next rest visited hv links hl ih =>
    rw [walkVisits_cons_ok hv hl] at h
    obtain ⟨more, hm⟩ := ih h
    exact ⟨next :: more, by rw [hm, OrderedSet.items_add hv, List.append_assoc, List.singleton_append]⟩

theorem head_walkBlocks {cid : Cid} {covered : List Cid} (h : walkBlocks g cid recursive = .ok covered) :
    covered.head? = some cid := by
  obtain ⟨result, hw, rfl⟩ : ∃ result, walkVisits g recursive [cid] .empty = .ok result ∧ result.items = covered := by
    rw [walkBlocks] at h
    cases hw : walkVisits g recursive [cid] .empty with
    | error e => simp [hw, Except.map] at h
    | ok result => exact ⟨result, rfl, by simpa [hw, Except.map] using h⟩
  have hv : cid ∉ (OrderedSet.empty : OrderedSet Cid) := OrderedSet.mem_empty cid
  cases hl : g.visit recursive cid with
  | error e =>
    rw [walkVisits_cons_error hv hl] at hw
    cases hw
  | ok links =>
    rw [walkVisits_cons_ok hv hl] at hw
    obtain ⟨more, hm⟩ := walkVisits_append hw
    rw [hm, OrderedSet.items_add hv]
    rfl

/-- A direct pin covers its root alone. -/
theorem walkBlocks_direct {cid : Cid} {covered : List Cid} (h : walkBlocks g cid false = .ok covered) :
    covered = [cid] := by
  have hv : cid ∉ (OrderedSet.empty : OrderedSet Cid) := OrderedSet.mem_empty cid
  rw [walkBlocks] at h
  by_cases hhas : g.has cid = true
  · have hl : g.visit false cid = .ok [] := by simp [BlockGraph.visit, visitBlock, hhas]
    rw [walkVisits_cons_ok hv hl, List.nil_append, walkVisits] at h
    exact (Except.ok.inj h).symm
  · have hl : g.visit false cid = .error (blockNotStored cid) := by
      simp [BlockGraph.visit, visitBlock, hhas]
    rw [walkVisits_cons_error hv hl] at h
    cases h

end Walk

/-- Whether the walk of a pin meets a block with this multihash. -/
def walkCovers (g : BlockGraph) (cid : Cid) (recursive : Bool) (m : Multihash) : Bool :=
  match walkBlocks g cid recursive with
  | .ok covered => decide (m ∈ covered.map Cid.multihash)
  | .error _ => false

/-- The index and the pins that callers made on it and have not taken back. -/
structure PinLedger where
  tables : PinTables
  live : LivePins

namespace PinLedger

def empty : PinLedger := ⟨.empty, .empty⟩

inductive Call where
  | pin (cid : Cid) (recursive : Bool)
  | unpin (cid : Cid)

/-- A call that is fulfilled makes or removes the pin on its CID; one that rejects does neither.
A recursive pin supersedes a direct one. -/
def call (g : BlockGraph) (s : PinLedger) : Call → PinLedger
  | .pin cid recursive =>
    match s.tables.pin g cid recursive with
    | .ok tables => ⟨tables, s.live.set cid (recursive || (s.live.get cid).getD false)⟩
    | .error _ => s
  | .unpin cid =>
    match s.tables.unpin g cid with
    | .ok tables => ⟨tables, s.live.delete cid⟩
    | .error _ => s

/-- A call that is fulfilled names its multihash by the CID the live pin on it was made on, and
the walk of a pin meets no multihash twice. -/
def OneName (g : BlockGraph) (s : PinLedger) : Call → Prop
  | .pin cid recursive => ∀ tables, s.tables.pin g cid recursive = .ok tables →
      Unaliased s.live cid ∧
        ∀ covered, walkBlocks g cid recursive = .ok covered → (covered.map Cid.multihash).Nodup
  | .unpin cid => ∀ tables, s.tables.unpin g cid = .ok tables → Unaliased s.live cid

/-- What holds of the index while every multihash has one name. -/
structure Counted (g : BlockGraph) (s : PinLedger) : Prop where
  accounts : Accounts (walkCovers g) s.tables s.live
  walks : ∀ cid k, s.live.get cid = some k →
    ∃ covered, walkBlocks g cid k = .ok covered ∧ (covered.map Cid.multihash).Nodup

section Invariant
variable {g : BlockGraph} {s : PinLedger}

theorem covered_of_walk {cid : Cid} {recursive : Bool} {covered : List Cid}
    (h : walkBlocks g cid recursive = .ok covered) (hn : (covered.map Cid.multihash).Nodup) :
    Covered (walkCovers g) cid recursive covered where
  head := head_walkBlocks h
  once := hn
  mem := by simp [walkCovers, h]

theorem Counted.direct (h : Counted g s) {cid : Cid} (hk : s.live.get cid = some false) (m : Multihash) :
    walkCovers g cid false m = true ↔ m = cid.multihash := by
  obtain ⟨covered, hw, -⟩ := h.walks cid false hk
  obtain rfl := walkBlocks_direct hw
  simp [walkCovers, hw]

theorem Counted.pin (h : Counted g s) {cid : Cid} {recursive : Bool} (hl : OneName g s (.pin cid recursive)) :
    Counted g (s.call g (.pin cid recursive)) := by
  rw [call]
  split
  case h_2 => exact h
  case h_1 tables hp =>
    obtain ⟨hu, hnodup⟩ := hl tables hp
    have hkind := h.accounts.rootKind_eq hu
    rw [PinTables.pin, hkind] at hp
    split at hp
    case isTrue hearly =>
      -- the pin is there already, so neither the tables nor the live pins change
      obtain rfl := Except.ok.inj hp
      have hset : s.live.set cid (recursive || (s.live.get cid).getD false) = s.live := by
        rcases hearly with hk | ⟨hk, hr⟩
        · exact OrderedMap.set_of_get (by simp [hk])
        · have hr : recursive = false := by simpa using hr
          exact OrderedMap.set_of_get (by simp [hk, hr])
      rw [hset]
      exact h
    case isFalse hnew =>
      obtain ⟨covered, hw, rfl⟩ : ∃ covered, walkBlocks g cid recursive = .ok covered ∧
          s.tables.countPin (s.live.get cid) cid recursive covered = tables := by
        cases hw : walkBlocks g cid recursive with
        | error e => simp [hw, Except.map] at hp
        | ok covered => exact ⟨covered, rfl, by simpa [hw, Except.map] using hp⟩
      have hk : s.live.get cid ≠ some true := fun hk => hnew (Or.inl hk)
      have hrec : (recursive || (s.live.get cid).getD false) = recursive := by
        rcases hg : s.live.get cid with _ | _ | _
        · simp
        · simp
        · exact absurd hg hk
      rw [hrec]
      refine ⟨h.accounts.countPin hu (covered_of_walk hw (hnodup covered hw)) (fun hg => h.direct hg) hk, ?_⟩
      intro other k ho
      rw [OrderedMap.get_set] at ho
      split at ho
      case isTrue heq =>
        obtain rfl := Option.some_inj.mp ho
        exact heq ▸ ⟨covered, hw, hnodup covered hw⟩
      case isFalse => exact h.walks other k ho

theorem Counted.unpin (h : Counted g s) {cid : Cid} (hl : OneName g s (.unpin cid)) :
    Counted g (s.call g (.unpin cid)) := by
  rw [call]
  split
  case h_2 => exact h
  case h_1 tables hp =>
    have hkind := h.accounts.rootKind_eq (hl tables hp)
    rw [PinTables.unpin, hkind] at hp
    have hwalks : ∀ other k, (s.live.delete cid).get other = some k →
        ∃ covered, walkBlocks g other k = .ok covered ∧ (covered.map Cid.multihash).Nodup := by
      intro other k ho
      rw [OrderedMap.get_delete] at ho
      split at ho
      · cases ho
      · exact h.walks other k ho
    split at hp
    case h_1 hk =>
      obtain rfl := Except.ok.inj hp
      have hdel : s.live.delete cid = s.live := OrderedMap.delete_of_get_none hk
      exact ⟨hdel.symm ▸ h.accounts, hwalks⟩
    case h_2 kind hk =>
      obtain ⟨covered, hw, hn⟩ := h.walks cid kind hk
      rw [hw] at hp
      obtain rfl := Except.ok.inj hp
      exact ⟨h.accounts.countUnpin hk (covered_of_walk hw hn), hwalks⟩

theorem Counted.call (h : Counted g s) {c : Call} (hc : OneName g s c) : Counted g (s.call g c) := by
  cases c with
  | pin cid recursive => exact h.pin hc
  | unpin cid => exact h.unpin hc

end Invariant

/-- The states of an index that starts empty, along calls the guard allows. -/
def Reached (g : BlockGraph) (allowed : PinLedger → Call → Prop) : PinLedger → Prop :=
  Run (fun s c => some (s.call g c)) (· = empty) allowed

/-- Each stored count is the number of live pins whose walk covers the multihash, and there is
no row exactly when there are none. -/
def Exact (g : BlockGraph) (s : PinLedger) : Prop :=
  ∀ m, s.tables.blockPins.get m =
    if s.live.covering (walkCovers g) m = 0 then none else some (s.live.covering (walkCovers g) m)

/-- The unpin of a CID leaves every block covered that a live pin on another CID covers. -/
def KeepsOthers (g : BlockGraph) (s : PinLedger) (cid : Cid) : Prop :=
  ∀ other k c, s.live.get other = some k → other ≠ cid → walkCovers g other k c.multihash = true →
    (s.call g (.unpin cid)).tables.isPinned c = true

theorem Counted.keepsOthers {g : BlockGraph} {s : PinLedger} (h : Counted g s) {cid : Cid}
    (hc : OneName g s (.unpin cid)) : KeepsOthers g s cid := by
  intro other k c ho hne hcov
  have hstay : (s.call g (.unpin cid)).live.get other = some k := by
    rw [PinLedger.call]
    split
    · rw [OrderedMap.get_delete, if_neg hne, ho]
    · exact ho
  exact ((h.call hc).accounts.isPinned_iff c).mpr ⟨other, k, hstay, hcov⟩

/-- Along every sequence of calls that name each multihash by one CID, the counts are exact and
an unpin uncovers nothing that another pin covers. -/
theorem pin_index_accounting {g : BlockGraph} {s : PinLedger} (h : Reached g (OneName g) s) :
    Exact g s ∧ ∀ cid, OneName g s (.unpin cid) → KeepsOthers g s cid := by
  have hc : Counted g s := by
    refine Run.invariant h ?_ ?_
    · rintro _ rfl
      exact ⟨.empty, by simp [empty]⟩
    · intro s c t hs hc ht
      exact Option.some_inj.mp ht ▸ hs.call hc
  exact ⟨hc.accounts.refs, fun cid hu => hc.keepsOthers hu⟩

namespace Sample

def leaf : Cid := .v1 rawCode [1]
def folder : Cid := .v1 dagPbCode [0]

/-- The folder's block, named as a raw one. -/
def rawFolder : Cid := .v1 rawCode [0]

/-- Two stored blocks: a folder that names a leaf. -/
def graph : BlockGraph where
  blocks := ⟨[([0], []), ([1], [])], by decide⟩
  decoders := ⟨fun _ => .ok [leaf], fun _ => .ok []⟩

theorem walk_raw (cid : Cid) (hr : cid.code = rawCode) (hs : graph.has cid = true) :
    walkBlocks graph cid true = .ok [cid] := by
  have hl : graph.visit true cid = .ok [] := by simp [BlockGraph.visit, visitBlock, hr, hs]
  rw [walkBlocks, walkVisits_cons_ok (OrderedSet.mem_empty cid) hl, List.nil_append, walkVisits]
  rfl

theorem walk_folder : walkBlocks graph folder true = .ok [folder, leaf] := by
  have hf : graph.visit true folder = .ok [leaf] := rfl
  have hl : graph.visit true leaf = .ok [] := rfl
  rw [walkBlocks, walkVisits_cons_ok (OrderedSet.mem_empty folder) hf, List.append_nil,
    walkVisits_cons_ok (by decide) hl, List.nil_append, walkVisits]
  rfl

/-- The index once the leaf is pinned. -/
def leafPinned : PinLedger where
  tables := ⟨⟨[([1], 1)], by decide⟩, ⟨[([1], true)], by decide⟩⟩
  live := OrderedMap.empty.set leaf true

theorem pin_leaf : empty.call graph (.pin leaf true) = leafPinned := by
  have hp : PinTables.empty.pin graph leaf true = .ok leafPinned.tables := by
    rw [PinTables.pin, walk_raw leaf rfl rfl]
    rfl
  simp only [call, empty, hp]
  rfl

/-- The index once the folder is pinned too, under its own name or as a raw block. -/
def folderPinned : PinLedger where
  tables := ⟨⟨[([1], 2), ([0], 1)], by decide⟩, ⟨[([1], true), ([0], true)], by decide⟩⟩
  live := leafPinned.live.set folder true

def rawFolderPinned : PinLedger where
  tables := ⟨⟨[([1], 1), ([0], 1)], by decide⟩, ⟨[([1], true), ([0], true)], by decide⟩⟩
  live := leafPinned.live.set rawFolder true

theorem pin_folder : leafPinned.call graph (.pin folder true) = folderPinned := by
  have hp : leafPinned.tables.pin graph folder true = .ok folderPinned.tables := by
    rw [PinTables.pin, walk_folder]
    rfl
  simp only [call, hp]
  rfl

theorem pin_rawFolder : leafPinned.call graph (.pin rawFolder true) = rawFolderPinned := by
  have hp : leafPinned.tables.pin graph rawFolder true = .ok rawFolderPinned.tables := by
    rw [PinTables.pin, walk_raw rawFolder rfl rfl]
    rfl
  simp only [call, hp]
  rfl

/-- The walk of the folder takes its block and the leaf's off, whichever name its pin had. -/
theorem unpin_folder : rawFolderPinned.call graph (.unpin folder) =
    ⟨⟨.empty, ⟨[([1], true)], by decide⟩⟩, rawFolderPinned.live.delete folder⟩ := by
  have hp : rawFolderPinned.tables.unpin graph folder = .ok ⟨.empty, ⟨[([1], true)], by decide⟩⟩ := by
    have hk : rawFolderPinned.tables.rootKind folder = some true := rfl
    simp only [PinTables.unpin, hk, walk_folder]
    rfl
  simp only [call, hp]

end Sample

/-- A leaf and a folder that names it, each pinned under one name. -/
theorem pin_index_accounting_folder :
    Reached Sample.graph (OneName Sample.graph) Sample.folderPinned ∧
      Sample.folderPinned.tables.blockPins.get [1] = some 2 ∧ Exact Sample.graph Sample.folderPinned ∧
      KeepsOthers Sample.graph Sample.folderPinned Sample.folder := by
  have h1 : Reached Sample.graph (OneName Sample.graph) Sample.leafPinned := by
    refine .next (.pin Sample.leaf true) (.start rfl) (fun _ _ => ⟨?_, ?_⟩) (congrArg some Sample.pin_leaf)
    · intro other k ho
      cases ho
    · intro covered hw
      obtain rfl := Except.ok.inj ((Sample.walk_raw _ rfl rfl).symm.trans hw)
      decide
  have h2 : Reached Sample.graph (OneName Sample.graph) Sample.folderPinned := by
    refine .next (.pin Sample.folder true) h1 (fun _ _ => ⟨?_, ?_⟩) (congrArg some Sample.pin_folder)
    · intro other k ho hm
      simp only [Sample.leafPinned, OrderedMap.get_set, OrderedMap.get_empty] at ho
      split at ho
      case isTrue heq => exact absurd (heq ▸ hm) (by decide)
      case isFalse => cases ho
    · intro covered hw
      obtain rfl := Except.ok.inj (Sample.walk_folder.symm.trans hw)
      decide
  obtain ⟨hexact, hkeeps⟩ := pin_index_accounting h2
  refine ⟨h2, rfl, hexact, hkeeps Sample.folder fun _ _ other k ho hm => ?_⟩
  simp only [Sample.folderPinned, Sample.leafPinned, OrderedMap.get_set, OrderedMap.get_empty] at ho
  split at ho
  case isTrue heq => exact heq
  case isFalse =>
    split at ho
    case isTrue heq => exact absurd (heq ▸ hm) (by decide)
    case isFalse => cases ho

/-- A folder pinned as a raw block and unpinned under its own name takes the count of a leaf it
never counted, and the pin on the leaf covers nothing any more. -/
theorem pin_index_accounting_raw_folder :
    Reached Sample.graph anyLabel Sample.rawFolderPinned ∧
      ¬ KeepsOthers Sample.graph Sample.rawFolderPinned Sample.folder ∧
      ¬ Exact Sample.graph (Sample.rawFolderPinned.call Sample.graph (.unpin Sample.folder)) := by
  have h1 : Reached Sample.graph anyLabel Sample.leafPinned :=
    .next (.pin Sample.leaf true) (.start rfl) trivial (congrArg some Sample.pin_leaf)
  have hcov : walkCovers Sample.graph Sample.leaf true [1] = true := by
    rw [walkCovers, Sample.walk_raw _ rfl rfl]
    rfl
  refine ⟨.next (.pin Sample.rawFolder true) h1 trivial (congrArg some Sample.pin_rawFolder), ?_, ?_⟩
  · intro h
    have hleaf := h Sample.leaf true Sample.leaf rfl (by decide) hcov
    rw [Sample.unpin_folder] at hleaf
    cases hleaf
  · intro h
    have hrow := h [1]
    rw [Sample.unpin_folder] at hrow
    simp only [OrderedMap.get_empty] at hrow
    split at hrow
    case isFalse => cases hrow
    case isTrue hz =>
      have hnone := List.countP_eq_zero.mp hz (Sample.leaf, true) (by decide)
      exact hnone hcov

end PinLedger

end RecordNode
