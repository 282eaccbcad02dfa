import RecordNode.Fabric.PinIndex
import RecordNode.Foundation.DepthFirst

/-! # Reading a file back

A UnixFS file is a tree of blocks: a raw leaf is file bytes, a dag-pb node may carry some
and links to the rest. A reader asks for one block at a time, keeps the chunks in file
order and stops at the first block that is missing, is no file, or takes the file past its
limit. Its suspension between two blocks is a state, so that the answers may come from
anywhere and at any time. -/

namespace RecordNode

open Foundation

/-- A decoded dag-pb block: its data and the texts of its links' CIDs. -/
structure PbNode where
  data : Option Bytes
  links : List String

structure UnixfsData where
  type : String
  data : Option Bytes
  fileSize : ℕ

/-- The decoders a reader uses; the two of block contents may throw. -/
structure FileCodecs where
  parse : String → Option Cid
  dagPb : Bytes → Except String PbNode
  unixfs : Bytes → Except String UnixfsData

inductive FileError where
  | protocol (error : ProtocolError)
  | thrown (message : String)
deriving DecidableEq

def invalidContentCid (text : String) : FileError := .protocol ⟨.invalidCid, s!"not a CID: {text}"⟩

def notUnixfsBlock (node : Cid) : FileError :=
  let text := node.format
  .protocol ⟨.invalidShape, s!"not a UnixFS block: {text}"⟩

def notUnixfsFile (node : Cid) : FileError :=
  let text := node.format
  .protocol ⟨.invalidShape, s!"not a UnixFS file: {text}"⟩

def fileTypes : List String := ["file", "raw"]

/-- What `visit` finds in a block: the chunk it takes, the links it follows, and the size a
file node declares. -/
structure OpenedBlock where
  chunk : Option Bytes
  links : List String
  declared : ℕ

def openBlock (K : FileCodecs) (node : Cid) (bytes : Bytes) : Except FileError OpenedBlock :=
  if node.code = rawCode then .ok ⟨some bytes, [], 0⟩
  else if node.code ≠ dagPbCode then .error (notUnixfsBlock node)
  else
    match K.dagPb bytes with
    | .error message => .error (.thrown message)
    | .ok pb =>
      match pb.data with
      | none => .error (notUnixfsFile node)
      | some data =>
        match K.unixfs data with
        | .error message => .error (.thrown message)
        | .ok file =>
          if file.type ∈ fileTypes then .ok ⟨file.data, pb.links, file.fileSize⟩ else .error (notUnixfsFile node)

structure FileProgress where
  chunks : List Bytes
  total : ℕ
  pending : List String
deriving DecidableEq

inductive FileRead where
  | awaiting (isRoot : Bool) (node : Cid) (progress : FileProgress)
  | finished (result : Except FileError (Option Bytes))
deriving DecidableEq

namespace FileRead

variable (K : FileCodecs) (cid : String) (maxBytes : Option ℕ)

/-- Over the limit; with none, nothing is. -/
def exceeds (maxBytes : Option ℕ) (size : ℕ) : Bool := maxBytes.any fun limit => decide (limit < size)

def fileTooLarge (cid : String) (maxBytes : Option ℕ) : FileError :=
  let limit := maxBytes.getD 0
  .protocol ⟨.sizeExceeded, s!"file over {limit} bytes: {cid}"⟩

/-- Ask for the next link, or hand over the file. -/
def follow (p : FileProgress) : FileRead :=
  match p.pending with
  | [] => finished (.ok (some p.chunks.flatten))
  | link :: rest =>
    match K.parse link with
    | none => finished (.error (invalidContentCid link))
    | some child => awaiting false child { p with pending := rest }

def take (p : FileProgress) (chunk : Bytes) : Except FileError FileProgress :=
  if exceeds maxBytes (p.total + chunk.length) then .error (fileTooLarge cid maxBytes)
  else .ok { p with chunks := p.chunks ++ [chunk], total := p.total + chunk.length }

def takeSome (p : FileProgress) : Option Bytes → Except FileError FileProgress
  | none => .ok p
  | some chunk => take cid maxBytes p chunk

/-- The call up to its first block. -/
def start : FileRead :=
  match K.parse cid with
  | none => finished (.error (invalidContentCid cid))
  | some root => awaiting true root ⟨[], 0, []⟩

/-- The call goes on with the block it waits for, or with none. -/
def answer (bytes : Option Bytes) : FileRead → FileRead
  | finished result => finished result
  | awaiting isRoot node p =>
    match bytes with
    | none => finished (if isRoot then .ok none else .error (.protocol (blockNotStored node)))
    | some bytes =>
      match openBlock K node bytes with
      | .error e => finished (.error e)
      | .ok opened =>
        if isRoot ∧ exceeds maxBytes opened.declared then finished (.error (fileTooLarge cid maxBytes))
        else
          match takeSome cid maxBytes p opened.chunk with
          | .error e => finished (.error e)
          | .ok p => follow K { p with pending := opened.links ++ p.pending }

/-- One more block from a fixed source. -/
def advance (read : Cid → Option Bytes) : FileRead → FileRead
  | awaiting isRoot node p => answer K cid maxBytes (read node) (awaiting isRoot node p)
  | finished result => finished result

end FileRead

/-! ## The file -/

/-- The link names a stored block. -/
structure Stored (K : FileCodecs) (read : Cid → Option Bytes) (link : String) (node : Cid) (block : Bytes) : Prop where
  parsed : K.parse link = some node
  stored : read node = some block

/-- The block is a UnixFS node of a file: dag-pb around UnixFS data of a file type. -/
structure FileNode (K : FileCodecs) (node : Cid) (block : Bytes) (links : List String) (file : UnixfsData) : Prop where
  dagPb : node.code = dagPbCode
  decoded : ∃ data, K.dagPb block = .ok ⟨some data, links⟩ ∧ K.unixfs data = .ok file
  type : file.type = "file" ∨ file.type = "raw"

/-- The files under these links, one after the other, have these bytes: a raw block is file bytes, a
node has its own data before the files its links name. -/
inductive FileBytes (K : FileCodecs) (read : Cid → Option Bytes) : List String → Bytes → Prop
  | nil : FileBytes K read [] []
  | leaf {link : String} {node : Cid} {block : Bytes} {rest : List String} {tail : Bytes}
      (at_link : Stored K read link node block) (raw : node.code = rawCode) (outer : FileBytes K read rest tail) :
      FileBytes K read (link :: rest) (block ++ tail)
  | node {link : String} {node : Cid} {block : Bytes} {links rest : List String} {file : UnixfsData} {below tail : Bytes}
      (at_link : Stored K read link node block) (is_node : FileNode K node block links file)
      (inner : FileBytes K read links below) (outer : FileBytes K read rest tail) :
      FileBytes K read (link :: rest) (file.data.getD [] ++ below ++ tail)

/-- The block under the CID is a node that declares this size for its file. -/
def Declares (K : FileCodecs) (read : Cid → Option Bytes) (cid : String) (size : ℕ) : Prop :=
  ∃ node block links file, Stored K read cid node block ∧ FileNode K node block links file ∧ file.fileSize = size

/-- A link opens when it names a file block. -/
def openLink (K : FileCodecs) (read : Cid → Option Bytes) (link : String) : Option (List Bytes × List String) :=
  match K.parse link with
  | none => none
  | some node =>
    match read node with
    | none => none
    | some bytes =>
      match openBlock K node bytes with
      | .error _ => none
      | .ok opened => some (opened.chunk.toList, opened.links)

/-- The size the root declares; a raw block declares none. -/
def declaredSize (K : FileCodecs) (read : Cid → Option Bytes) (cid : String) : ℕ :=
  match K.parse cid with
  | none => 0
  | some root =>
    match read root with
    | none => 0
    | some bytes =>
      match openBlock K root bytes with
      | .error _ => 0
      | .ok opened => opened.declared

/-- The blocks under this CID are a file with these bytes. -/
def IsFile (K : FileCodecs) (read : Cid → Option Bytes) (cid : String) (bytes : Bytes) : Prop :=
  ∃ chunks, Emits (openLink K read) [cid] chunks ∧ bytes = chunks.flatten

/-- No size met on the way passes the limit. -/
def FileFits (K : FileCodecs) (read : Cid → Option Bytes) (maxBytes : Option ℕ) (cid : String) (bytes : Bytes) : Prop :=
  FileRead.exceeds maxBytes (declaredSize K read cid) = false ∧ FileRead.exceeds maxBytes bytes.length = false

section Meaning
variable {K : FileCodecs} {read : Cid → Option Bytes}

theorem FileNode.opens {node : Cid} {block : Bytes} {links : List String} {file : UnixfsData}
    (h : FileNode K node block links file) : openBlock K node block = .ok ⟨file.data, links, file.fileSize⟩ := by
  obtain ⟨data, hdecoded, hunixfs⟩ := h.decoded
  have hraw : node.code ≠ rawCode := by rw [h.dagPb]; decide
  have htype : file.type ∈ fileTypes := by simpa [fileTypes] using h.type
  simp only [openBlock, if_neg hraw]
  simp only [h.dagPb, ne_eq, not_true_eq_false, if_false, hdecoded, hunixfs, if_pos htype]

/-- A block that opens is file bytes or a node of a file. -/
theorem openBlock_cases {node : Cid} {block : Bytes} {opened : OpenedBlock} (h : openBlock K node block = .ok opened) :
    node.code = rawCode ∧ opened = ⟨some block, [], 0⟩ ∨
      ∃ links file, FileNode K node block links file ∧ opened = ⟨file.data, links, file.fileSize⟩ := by
  unfold openBlock at h
  split at h
  · next hraw => exact .inl ⟨hraw, (Except.ok.inj h).symm⟩
  · split at h
    · cases h
    · next hcode =>
      split at h
      · cases h
      · next pb hdecoded =>
        obtain ⟨data, links⟩ := pb
        split at h
        · cases h
        · next data hdata =>
          split at h
          · cases h
          · next file hunixfs =>
            split at h
            · next htype =>
              simp only at hdata
              subst hdata
              refine .inr ⟨links, file, ⟨not_ne_iff.mp hcode, ⟨data, hdecoded, hunixfs⟩, ?_⟩, (Except.ok.inj h).symm⟩
              simpa [fileTypes] using htype
            · cases h

theorem openLink_cases {link : String} {own : List Bytes} {children : List String}
    (h : openLink K read link = some (own, children)) : ∃ node block, Stored K read link node block ∧
      (node.code = rawCode ∧ own = [block] ∧ children = [] ∨
        ∃ file, FileNode K node block children file ∧ own = file.data.toList) := by
  unfold openLink at h
  split at h
  · cases h
  · next node hnode =>
    split at h
    · cases h
    · next block hread =>
      split at h
      · cases h
      · next opened hopen =>
        obtain ⟨rfl, rfl⟩ := Prod.mk.inj (Option.some_inj.mp h)
        refine ⟨node, block, ⟨hnode, hread⟩, ?_⟩
        obtain ⟨hraw, rfl⟩ | ⟨links, file, hfile, rfl⟩ := openBlock_cases hopen
        · exact .inl ⟨hraw, rfl, rfl⟩
        · exact .inr ⟨file, hfile, rfl⟩

theorem openLink_raw {link : String} {node : Cid} {block : Bytes} (h : Stored K read link node block)
    (hraw : node.code = rawCode) : openLink K read link = some ([block], []) := by
  simp only [openLink, h.parsed, h.stored, openBlock, if_pos hraw, Option.toList_some]

theorem openLink_node {link : String} {node : Cid} {block : Bytes} {links : List String} {file : UnixfsData}
    (h : Stored K read link node block) (hfile : FileNode K node block links file) :
    openLink K read link = some (file.data.toList, links) := by
  simp only [openLink, h.parsed, h.stored, hfile.opens]

theorem flatten_toList (data : Option Bytes) : data.toList.flatten = data.getD [] := by
  cases data <;> simp

theorem FileBytes.eq_nil {bytes : Bytes} (h : FileBytes K read [] bytes) : bytes = [] := by
  cases h
  rfl

/-- What the reader's walk emits is the bytes of the files. -/
theorem fileBytes_of_emits {links : List String} {chunks : List Bytes} (h : Emits (openLink K read) links chunks) :
    FileBytes K read links chunks.flatten := by
  induction h with
  | nil => exact .nil
  | cons hopen _ _ ihInner ihOuter =>
    simp only [List.flatten_append]
    obtain ⟨node, block, hstored, ⟨hraw, rfl, rfl⟩ | ⟨file, hfile, rfl⟩⟩ := openLink_cases hopen
    · rw [ihInner.eq_nil, List.append_nil, List.flatten_singleton]
      exact .leaf hstored hraw ihOuter
    · rw [flatten_toList]
      exact .node hstored hfile ihInner ihOuter

theorem emits_of_fileBytes {links : List String} {bytes : Bytes} (h : FileBytes K read links bytes) :
    ∃ chunks, Emits (openLink K read) links chunks ∧ bytes = chunks.flatten := by
  induction h with
  | nil => exact ⟨[], .nil, rfl⟩
  | leaf hstored hraw _ ih =>
    obtain ⟨chunks, hchunks, rfl⟩ := ih
    exact ⟨_, .cons (openLink_raw hstored hraw) .nil hchunks, by simp⟩
  | node hstored hfile _ _ ihInner ihOuter =>
    obtain ⟨inner, hinner, rfl⟩ := ihInner
    obtain ⟨outer, houter, rfl⟩ := ihOuter
    exact ⟨_, .cons (openLink_node hstored hfile) hinner houter, by simp [flatten_toList]⟩

theorem isFile_iff {cid : String} {bytes : Bytes} : IsFile K read cid bytes ↔ FileBytes K read [cid] bytes := by
  constructor
  · rintro ⟨chunks, hchunks, rfl⟩
    exact fileBytes_of_emits hchunks
  · exact emits_of_fileBytes

theorem Declares.eq {cid : String} {size : ℕ} (h : Declares K read cid size) : declaredSize K read cid = size := by
  obtain ⟨node, block, links, file, hstored, hfile, rfl⟩ := h
  simp only [declaredSize, hstored.parsed, hstored.stored, hfile.opens]

/-- The size the reader compares is one the root declares, or nothing. -/
theorem declaredSize_cases (cid : String) :
    declaredSize K read cid = 0 ∨ Declares K read cid (declaredSize K read cid) := by
  unfold declaredSize
  split
  · exact .inl rfl
  · next root hroot =>
    split
    · exact .inl rfl
    · next block hread =>
      split
      · exact .inl rfl
      · next opened hopen =>
        obtain ⟨-, rfl⟩ | ⟨links, file, hfile, rfl⟩ := openBlock_cases hopen
        · exact .inl rfl
        · exact .inr ⟨root, block, links, file, ⟨hroot, hread⟩, hfile, rfl⟩

/-- The limit as a reader of the contract has it: none, or one that neither the bytes nor the size the
root declares passes. -/
theorem fileFits_iff {maxBytes : Option ℕ} {cid : String} {bytes : Bytes} :
    FileFits K read maxBytes cid bytes ↔
      ∀ limit ∈ maxBytes, bytes.length ≤ limit ∧ ∀ size, Declares K read cid size → size ≤ limit := by
  cases maxBytes with
  | none => simp [FileFits, FileRead.exceeds]
  | some limit =>
    simp only [FileFits, FileRead.exceeds, Option.any_some, decide_eq_false_iff_not, not_lt, Option.mem_some_iff,
      forall_eq']
    constructor
    · rintro ⟨hdeclared, hlength⟩
      exact ⟨hlength, fun size hsize => hsize.eq ▸ hdeclared⟩
    · rintro ⟨hlength, hdeclared⟩
      refine ⟨?_, hlength⟩
      have hcases : declaredSize K read cid = 0 ∨ Declares K read cid (declaredSize K read cid) := declaredSize_cases cid
      obtain hzero | hdeclares := hcases
      · omega
      · exact hdeclared _ hdeclares

end Meaning

namespace FileRead

variable {K : FileCodecs} {read : Cid → Option Bytes} {missing : Cid → Prop} {cid : String} {maxBytes : Option ℕ}

/-- What a reader under way knows of the file it reads. -/
structure Tracks (K : FileCodecs) (read : Cid → Option Bytes) (maxBytes : Option ℕ) (cid : String)
    (p : FileProgress) (stack : List String) : Prop where
  walking : Walking (openLink K read) cid stack p.chunks
  total : p.total = p.chunks.flatten.length
  within : exceeds maxBytes p.total = false

/-- Sound states: a file handed over is the file, one under way still can be, and only a root
that was not to be had reads as absent. -/
inductive Sound (K : FileCodecs) (read : Cid → Option Bytes) (missing : Cid → Prop) (maxBytes : Option ℕ)
    (cid : String) : FileRead → Prop
  | root {node : Cid} (h : K.parse cid = some node) : Sound K read missing maxBytes cid (awaiting true node ⟨[], 0, []⟩)
  | inner {link : String} {node : Cid} {p : FileProgress} (h : K.parse link = some node)
      (hp : Tracks K read maxBytes cid p (link :: p.pending))
      (hdeclared : exceeds maxBytes (declaredSize K read cid) = false) :
      Sound K read missing maxBytes cid (awaiting false node p)
  | file {bytes : Bytes} (h : ∀ b, IsFile K read cid b ↔ b = bytes) (hfits : FileFits K read maxBytes cid bytes) :
      Sound K read missing maxBytes cid (finished (.ok (some bytes)))
  | absent {root : Cid} (h : K.parse cid = some root) (hmissing : missing root) : Sound K read missing maxBytes cid (finished (.ok none))
  | failed (e : FileError) : Sound K read missing maxBytes cid (finished (.error e))

theorem exceeds_zero (maxBytes : Option ℕ) : exceeds maxBytes 0 = false := by
  cases maxBytes <;> simp [exceeds]

theorem exceeds_mono {small large : ℕ} (hle : small ≤ large) (h : exceeds maxBytes large = false) :
    exceeds maxBytes small = false := by
  cases maxBytes with
  | none => rfl
  | some limit =>
    simp only [exceeds, Option.any_some, decide_eq_false_iff_not] at h ⊢
    omega

theorem Sound.follow {p : FileProgress} (hp : Tracks K read maxBytes cid p p.pending)
    (hdeclared : exceeds maxBytes (declaredSize K read cid) = false) : Sound K read missing maxBytes cid (follow K p) := by
  unfold FileRead.follow
  split
  · next hpending =>
    have hw := hp.walking
    rw [hpending] at hw
    refine .file ?_ ⟨hdeclared, hp.total ▸ hp.within⟩
    intro b
    constructor
    · rintro ⟨chunks, hchunks, rfl⟩
      rw [hw.finish.mp hchunks]
    · rintro rfl
      exact ⟨_, hw.finish.mpr rfl, rfl⟩
  · next link rest hpending =>
    split
    · exact .failed _
    · next child hchild =>
      refine .inner hchild ?_ hdeclared
      exact ⟨hpending ▸ hp.walking, hp.total, hp.within⟩

theorem sound_start : Sound K read missing maxBytes cid (start K cid) := by
  unfold FileRead.start
  split
  · exact .failed _
  · next root hroot => exact .root hroot

theorem takeSome_eq_ok {p q : FileProgress} {chunk : Option Bytes} (h : takeSome cid maxBytes p chunk = .ok q)
    (hp : exceeds maxBytes p.total = false) :
    q = ⟨p.chunks ++ chunk.toList, p.total + chunk.toList.flatten.length, p.pending⟩ ∧ exceeds maxBytes q.total = false := by
  cases chunk with
  | none =>
    cases h
    simp [hp]
  | some chunk =>
    rw [takeSome, take] at h
    split at h
    · cases h
    · next hfits =>
      cases h
      simpa using hfits

theorem openLink_eq_some {link : String} {node : Cid} {bytes : Bytes} {opened : OpenedBlock}
    (hnode : K.parse link = some node) (hread : read node = some bytes) (hopen : openBlock K node bytes = .ok opened) :
    openLink K read link = some (opened.chunk.toList, opened.links) := by
  simp only [openLink, hnode, hread, hopen]

theorem declaredSize_eq {node : Cid} {bytes : Bytes} {opened : OpenedBlock} (hnode : K.parse cid = some node)
    (hread : read node = some bytes) (hopen : openBlock K node bytes = .ok opened) :
    declaredSize K read cid = opened.declared := by
  simp only [declaredSize, hnode, hread, hopen]

theorem Tracks.open {p q : FileProgress} {link : String} {node : Cid} {bytes : Bytes} {opened : OpenedBlock}
    (hp : Tracks K read maxBytes cid p (link :: p.pending)) (hnode : K.parse link = some node)
    (hread : read node = some bytes) (hopen : openBlock K node bytes = .ok opened)
    (htake : takeSome cid maxBytes p opened.chunk = .ok q) :
    Tracks K read maxBytes cid { q with pending := opened.links ++ q.pending } (opened.links ++ q.pending) := by
  obtain ⟨rfl, hwithin⟩ := takeSome_eq_ok htake hp.within
  refine ⟨hp.walking.step (openLink_eq_some hnode hread hopen), ?_, hwithin⟩
  simp only [List.flatten_append, List.length_append, hp.total]

/-- An answer is what the CID stands for, or none where none may be given. -/
def Answers (read : Cid → Option Bytes) (missing : Cid → Prop) (node : Cid) (bytes : Option Bytes) : Prop :=
  bytes = none ∧ missing node ∨ bytes ≠ none ∧ bytes = read node

theorem Sound.answer {isRoot : Bool} {node : Cid} {p : FileProgress} {bytes : Option Bytes}
    (h : Sound K read missing maxBytes cid (awaiting isRoot node p)) (hanswer : Answers read missing node bytes) :
    Sound K read missing maxBytes cid (answer K cid maxBytes bytes (awaiting isRoot node p)) := by
  cases bytes with
  | none =>
    have hmissing : missing node := by
      rcases hanswer with ⟨-, h⟩ | ⟨h, -⟩
      · exact h
      · exact absurd rfl h
    cases h with
    | root hroot => exact .absent hroot hmissing
    | inner => exact .failed _
  | some bytes =>
    have hread : read node = some bytes := by
      rcases hanswer with ⟨h, -⟩ | ⟨-, h⟩
      · cases h
      · exact h.symm
    unfold FileRead.answer
    simp only
    split
    · exact .failed _
    · next opened hopen =>
      split
      · exact .failed _
      · next hdeclared =>
        split
        · exact .failed _
        · next q htake =>
          cases h with
          | root hroot =>
            rw [← declaredSize_eq hroot hread hopen] at hdeclared
            have hstart : Tracks K read maxBytes cid ⟨[], 0, []⟩ [cid] := ⟨.start, rfl, exceeds_zero maxBytes⟩
            exact .follow (hstart.open hroot hread hopen htake) (by simpa using hdeclared)
          | inner hlink hp hsize => exact .follow (hp.open hlink hread hopen htake) hsize

/-! ## Reading from a fixed source -/

theorem advance_awaiting (isRoot : Bool) (node : Cid) (p : FileProgress) :
    advance K cid maxBytes read (awaiting isRoot node p) =
      answer K cid maxBytes (read node) (awaiting isRoot node p) := rfl

theorem advance_finished (n : ℕ) (result : Except FileError (Option Bytes)) :
    (advance K cid maxBytes read)^[n] (finished result) = finished result :=
  Function.iterate_fixed rfl n

theorem sound_advance (n : ℕ) :
    Sound K read (fun c => read c = none) maxBytes cid ((advance K cid maxBytes read)^[n] (start K cid)) := by
  induction n with
  | zero => exact sound_start
  | succ n ih =>
    rw [Function.iterate_succ_apply']
    cases hs : (advance K cid maxBytes read)^[n] (start K cid) with
    | finished result =>
      rw [hs] at ih
      exact ih
    | awaiting isRoot node p =>
      rw [hs] at ih
      rw [advance_awaiting]
      refine ih.answer ?_
      cases hread : read node with
      | none => exact .inl ⟨rfl, hread⟩
      | some bytes => exact .inr ⟨Option.some_ne_none bytes, hread.symm⟩

/-- The blocks below some links, read in turn, leave the reader at the links behind them. -/
theorem advance_follow {stack : List String} {w : List Bytes} (hw : Emits (openLink K read) stack w)
    (tail : List String) (p : FileProgress) (hpending : p.pending = stack ++ tail)
    (hfits : exceeds maxBytes (p.total + w.flatten.length) = false) :
    ∃ n, (advance K cid maxBytes read)^[n] (follow K p) =
      follow K ⟨p.chunks ++ w, p.total + w.flatten.length, tail⟩ := by
  induction hw generalizing p tail with
  | nil =>
    refine ⟨0, ?_⟩
    rw [List.nil_append] at hpending
    subst hpending
    simp
  | @cons link rest children own inner outer hopen _ _ ihInner ihOuter =>
    unfold openLink at hopen
    split at hopen
    · cases hopen
    · next node hnode =>
      split at hopen
      · cases hopen
      · next bytes hread =>
        split at hopen
        · cases hopen
        · next opened hblock =>
          obtain ⟨rfl, rfl⟩ := Prod.mk.inj (Option.some_inj.mp hopen)
          have hlength : (opened.chunk.toList ++ inner ++ outer).flatten.length =
              opened.chunk.toList.flatten.length + inner.flatten.length + outer.flatten.length := by
            simp only [List.flatten_append, List.length_append]
          rw [hlength] at hfits
          have htake : takeSome cid maxBytes { p with pending := rest ++ tail } opened.chunk =
              .ok ⟨p.chunks ++ opened.chunk.toList, p.total + opened.chunk.toList.flatten.length, rest ++ tail⟩ := by
            cases hchunk : opened.chunk with
            | none => simp [takeSome]
            | some chunk =>
              rw [hchunk] at hfits
              have hroom : exceeds maxBytes (p.total + chunk.length) = false :=
                exceeds_mono (by simp only [Option.toList_some, List.flatten_singleton]; omega) hfits
              simp [takeSome, take, hroom]
          have hstep : advance K cid maxBytes read (follow K p) = follow K ⟨p.chunks ++ opened.chunk.toList,
              p.total + opened.chunk.toList.flatten.length, opened.links ++ (rest ++ tail)⟩ := by
            have hfollow : follow K p = awaiting false node { p with pending := rest ++ tail } := by
              rw [follow, hpending, List.cons_append]
              simp only [hnode]
            rw [hfollow, advance_awaiting, hread]
            simp only [answer, hblock, htake, Bool.false_eq_true, false_and, if_false]
          obtain ⟨n, hn⟩ := ihInner (rest ++ tail) ⟨p.chunks ++ opened.chunk.toList,
            p.total + opened.chunk.toList.flatten.length, opened.links ++ (rest ++ tail)⟩ rfl
            (exceeds_mono (by simp only; omega) hfits)
          obtain ⟨m, hm⟩ := ihOuter tail ⟨p.chunks ++ opened.chunk.toList ++ inner,
            p.total + opened.chunk.toList.flatten.length + inner.flatten.length, rest ++ tail⟩ rfl
            (exceeds_mono (by simp only; omega) hfits)
          refine ⟨m + (n + 1), ?_⟩
          rw [Function.iterate_add_apply, Function.iterate_succ_apply, hstep, hn, hm, hlength]
          simp only [List.append_assoc, Nat.add_assoc]

/-- A root that opens within its declared size, and what is read under it, make the file. -/
theorem advance_start {bytes : Bytes} (hfile : IsFile K read cid bytes) (hfits : FileFits K read maxBytes cid bytes) :
    ∃ n, (advance K cid maxBytes read)^[n] (start K cid) = finished (.ok (some bytes)) := by
  obtain ⟨chunks, hchunks, rfl⟩ := hfile
  obtain ⟨hdeclared, hlength⟩ := hfits
  obtain ⟨own, children, hopen⟩ := hchunks.opens_of_cons
  -- the walk from the root link, but for the state the root is awaited in
  have hwalk : ∃ n, (advance K cid maxBytes read)^[n] (follow K ⟨[], 0, [cid]⟩) =
      follow K ⟨[] ++ chunks, 0 + chunks.flatten.length, []⟩ :=
    advance_follow hchunks [] ⟨[], 0, [cid]⟩ rfl (by simpa using hlength)
  obtain ⟨n, hn⟩ := hwalk
  unfold openLink at hopen
  split at hopen
  · cases hopen
  · next root hroot =>
    split at hopen
    · cases hopen
    · next block hread =>
      split at hopen
      · cases hopen
      · next opened hblock =>
        rw [declaredSize_eq hroot hread hblock] at hdeclared
        have hstart : start K cid = awaiting true root ⟨[], 0, []⟩ := by
          simp only [start, hroot]
        have hfollow : follow K ⟨[], 0, [cid]⟩ = awaiting false root ⟨[], 0, []⟩ := by
          simp only [follow, hroot]
        have hsame : answer K cid maxBytes (read root) (awaiting true root ⟨[], 0, []⟩) =
            answer K cid maxBytes (read root) (awaiting false root ⟨[], 0, []⟩) := by
          rw [hread]
          simp only [answer, hblock, hdeclared, Bool.false_eq_true, and_false, if_false]
        cases n with
        | zero =>
          rw [Function.iterate_zero_apply, hfollow] at hn
          cases hn
        | succ n =>
          refine ⟨n + 1, ?_⟩
          rw [Function.iterate_succ_apply, hfollow, advance_awaiting] at hn
          rw [Function.iterate_succ_apply, hstart, advance_awaiting, hsame, hn]
          rfl

/-- Links name blocks further down: a block cannot hold the hash of one that holds its own. -/
def Ranked (K : FileCodecs) (read : Cid → Option Bytes) (rank : String → ℕ) : Prop :=
  ∀ link own children, openLink K read link = some (own, children) → ∀ child ∈ children, rank child < rank link

theorem ends_of_answer {state : FileRead} {isRoot : Bool} {node : Cid} {p : FileProgress}
    (hstate : state = awaiting isRoot node p)
    (h : ∃ n result, (advance K cid maxBytes read)^[n] (answer K cid maxBytes (read node) (awaiting isRoot node p)) =
      finished result) :
    ∃ n result, (advance K cid maxBytes read)^[n] state = finished result := by
  obtain ⟨n, result, hn⟩ := h
  refine ⟨n + 1, result, ?_⟩
  rw [Function.iterate_succ_apply, hstate, advance_awaiting, hn]

/-- An answer ends the reader or leaves it at the links of the block. -/
theorem ends_answer {link : String} {node : Cid} (hnode : K.parse link = some node) (isRoot : Bool) (p : FileProgress)
    (h : ∀ own children, openLink K read link = some (own, children) → ∀ chunks total, ∃ n result,
      (advance K cid maxBytes read)^[n] (follow K ⟨chunks, total, children ++ p.pending⟩) = finished result) :
    ∃ n result, (advance K cid maxBytes read)^[n] (answer K cid maxBytes (read node) (awaiting isRoot node p)) =
      finished result := by
  cases hread : read node with
  | none => exact ⟨0, _, rfl⟩
  | some bytes =>
    simp only [answer]
    cases hopen : openBlock K node bytes with
    | error e => exact ⟨0, _, rfl⟩
    | ok opened =>
      simp only
      split
      · exact ⟨0, _, rfl⟩
      · cases htake : takeSome cid maxBytes p opened.chunk with
        | error e => exact ⟨0, _, rfl⟩
        | ok q =>
          have hpending : q.pending = p.pending := by
            cases hchunk : opened.chunk with
            | none =>
              rw [hchunk] at htake
              cases htake
              rfl
            | some chunk =>
              rw [hchunk, takeSome, take] at htake
              split at htake
              · cases htake
              · cases htake
                rfl
          simp only [hpending]
          exact h _ _ (openLink_eq_some hnode hread hopen) q.chunks q.total

theorem ends_follow {rank : String → ℕ} (hrank : Ranked K read rank) (stack : List String) :
    ∀ chunks total, ∃ n result, (advance K cid maxBytes read)^[n] (follow K ⟨chunks, total, stack⟩) = finished result := by
  have hcons : ∀ link rest, (∀ own children, openLink K read link = some (own, children) → ∀ chunks total, ∃ n result,
      (advance K cid maxBytes read)^[n] (follow K ⟨chunks, total, children ++ rest⟩) = finished result) →
      ∀ chunks total, ∃ n result,
        (advance K cid maxBytes read)^[n] (follow K ⟨chunks, total, link :: rest⟩) = finished result := by
    intro link rest h chunks total
    cases hnode : K.parse link with
    | none =>
      refine ⟨0, .error (invalidContentCid link), ?_⟩
      simp only [Function.iterate_zero_apply, follow, hnode]
    | some node =>
      have hfollow : follow K ⟨chunks, total, link :: rest⟩ = awaiting false node ⟨chunks, total, rest⟩ := by
        simp only [follow, hnode]
      exact ends_of_answer hfollow (ends_answer hnode _ _ h)
  induction stack using stack_induction hrank with
  | hnil => exact fun chunks total => ⟨0, _, rfl⟩
  | hstuck link rest hopen =>
    refine hcons link rest ?_
    intro own children h
    rw [hopen] at h
    cases h
  | hopen link rest own children hopen ih =>
    refine hcons link rest ?_
    intro own' children' h
    obtain ⟨rfl, rfl⟩ := Prod.mk.inj (Option.some_inj.mp (hopen.symm.trans h))
    exact ih

theorem ends_start {rank : String → ℕ} (hrank : Ranked K read rank) :
    ∃ n result, (advance K cid maxBytes read)^[n] (start K cid) = finished result := by
  cases hroot : K.parse cid with
  | none => exact ⟨0, .error (invalidContentCid cid), by simp only [Function.iterate_zero_apply, start, hroot]⟩
  | some root =>
    have hstart : start K cid = awaiting true root ⟨[], 0, []⟩ := by
      simp only [start, hroot]
    refine ends_of_answer hstart (ends_answer hroot _ _ ?_)
    intro own children hopen
    exact ends_follow hrank _

/-- A finished reader stays as it is, so two ends are one. -/
theorem finished_unique {state : FileRead} {n m : ℕ} {a b : Except FileError (Option Bytes)}
    (ha : (advance K cid maxBytes read)^[n] state = finished a) (hb : (advance K cid maxBytes read)^[m] state = finished b) :
    a = b := by
  have hboth : (advance K cid maxBytes read)^[n + m] state = finished a := by
    rw [Nat.add_comm, Function.iterate_add_apply, ha, advance_finished]
  rw [Function.iterate_add_apply, hb, advance_finished] at hboth
  injection hboth with hboth
  exact hboth.symm

end FileRead

/-- From a fixed source, a reader hands over bytes exactly when the blocks under the CID are a file
with these bytes, in which each node's own data stands before what its links hold, the bytes keep to
the limit and the root declares no more; it reads as absent exactly when the root is not there. -/
theorem read_unixfs_file_iff (K : FileCodecs) (read : Cid → Option Bytes) (cid : String) (maxBytes : Option ℕ) :
    (∀ bytes, (∃ n, (FileRead.advance K cid maxBytes read)^[n] (FileRead.start K cid) = .finished (.ok (some bytes))) ↔
        FileBytes K read [cid] bytes ∧
          ∀ limit ∈ maxBytes, bytes.length ≤ limit ∧ ∀ size, Declares K read cid size → size ≤ limit) ∧
      ((∃ n, (FileRead.advance K cid maxBytes read)^[n] (FileRead.start K cid) = .finished (.ok none)) ↔
        ∃ root, K.parse cid = some root ∧ read root = none) := by
  refine ⟨fun bytes => ?_, ?_, ?_⟩
  · rw [← isFile_iff, ← fileFits_iff]
    refine ⟨?_, fun h => FileRead.advance_start h.1 h.2⟩
    rintro ⟨n, hn⟩
    have hsound : FileRead.Sound K read (fun c => read c = none) maxBytes cid (.finished (.ok (some bytes))) :=
      hn ▸ FileRead.sound_advance n
    cases hsound with
    | file hfile hfits => exact ⟨(hfile bytes).mpr rfl, hfits⟩
  · rintro ⟨n, hn⟩
    have hsound : FileRead.Sound K read (fun c => read c = none) maxBytes cid (.finished (.ok none)) :=
      hn ▸ FileRead.sound_advance n
    cases hsound with
    | absent hroot hmissing => exact ⟨_, hroot, hmissing⟩
  · rintro ⟨root, hroot, hread⟩
    refine ⟨1, ?_⟩
    rw [Function.iterate_one, FileRead.start]
    simp only [hroot, FileRead.advance, FileRead.answer, hread, if_true]

/-- Where links lead further down, every read ends, and it ends in an error exactly when the CID
is none or the root is there but not a file within the limit. -/
theorem read_unixfs_file_ends (K : FileCodecs) (read : Cid → Option Bytes) (cid : String) (maxBytes : Option ℕ)
    (rank : String → ℕ) (hrank : FileRead.Ranked K read rank) :
    ∃ n result, (FileRead.advance K cid maxBytes read)^[n] (FileRead.start K cid) = .finished result ∧
      ((∃ e, result = .error e) ↔ (∀ root, K.parse cid = some root → read root ≠ none) ∧
        ∀ bytes, ¬ (IsFile K read cid bytes ∧ FileFits K read maxBytes cid bytes)) := by
  obtain ⟨n, result, hn⟩ : ∃ n result, (FileRead.advance K cid maxBytes read)^[n] (FileRead.start K cid) =
    .finished result := FileRead.ends_start hrank
  refine ⟨n, result, hn, ?_⟩
  have hsound : FileRead.Sound K read (fun c => read c = none) maxBytes cid (.finished result) :=
    hn ▸ FileRead.sound_advance n
  constructor
  · rintro ⟨e, rfl⟩
    constructor
    · intro root hroot hread
      have habsent : (FileRead.advance K cid maxBytes read)^[1] (FileRead.start K cid) = .finished (.ok none) := by
        rw [Function.iterate_one, FileRead.start]
        simp only [hroot, FileRead.advance, FileRead.answer, hread, if_true]
      cases FileRead.finished_unique hn habsent
    · rintro bytes ⟨hfile, hfits⟩
      obtain ⟨m, hm⟩ := FileRead.advance_start hfile hfits
      cases FileRead.finished_unique hn hm
  · rintro ⟨hpresent, hnone⟩
    cases hsound with
    | file hfile hfits => exact absurd ⟨(hfile _).mpr rfl, hfits⟩ (hnone _)
    | absent hroot hmissing => exact absurd hmissing (hpresent _ hroot)
    | failed e => exact ⟨e, rfl⟩

namespace FileSample

/-- Two leaves under a node that declares three bytes; a block's text is its one-byte multihash. -/
def codecs : FileCodecs where
  parse text := match text with
    | "node" => some (.v1 dagPbCode [0])
    | "left" => some (.v1 rawCode [1])
    | "right" => some (.v1 rawCode [2])
    | _ => none
  dagPb _ := .ok ⟨some [], ["left", "right"]⟩
  unixfs _ := .ok ⟨"file", none, 3⟩

def blocks (cid : Cid) : Option Bytes :=
  if cid = .v1 dagPbCode [0] then some []
  else if cid = .v1 rawCode [1] then some [10, 11]
  else if cid = .v1 rawCode [2] then some [12]
  else none

def rank (text : String) : ℕ := if text = "node" then 1 else 0

theorem ranked : FileRead.Ranked codecs blocks rank := by
  intro link own children hopen child hchild
  by_cases hnode : link = "node"
  · subst hnode
    have hsome : openLink codecs blocks "node" = some ([], ["left", "right"]) := rfl
    rw [hsome] at hopen
    cases hopen
    simp only [List.mem_cons, List.not_mem_nil, or_false] at hchild
    rcases hchild with rfl | rfl <;> decide
  · by_cases hleft : link = "left"
    · subst hleft
      have hsome : openLink codecs blocks "left" = some ([[10, 11]], []) := rfl
      rw [hsome] at hopen
      cases hopen
      cases hchild
    · by_cases hright : link = "right"
      · subst hright
        have hsome : openLink codecs blocks "right" = some ([[12]], []) := rfl
        rw [hsome] at hopen
        cases hopen
        cases hchild
      · have hparse : codecs.parse link = none := by
          simp only [codecs]
        simp [openLink, hparse] at hopen

end FileSample

theorem read_unixfs_file_ends_three :
    ∃ n result, (FileRead.advance FileSample.codecs "node" (some 3) FileSample.blocks)^[n]
        (FileRead.start FileSample.codecs "node") = .finished result ∧
      ((∃ e, result = .error e) ↔
        (∀ root, FileSample.codecs.parse "node" = some root → FileSample.blocks root ≠ none) ∧
          ∀ bytes, ¬ (IsFile FileSample.codecs FileSample.blocks "node" bytes ∧
            FileFits FileSample.codecs FileSample.blocks (some 3) "node" bytes)) :=
  read_unixfs_file_ends FileSample.codecs FileSample.blocks "node" (some 3) FileSample.rank FileSample.ranked

end RecordNode
