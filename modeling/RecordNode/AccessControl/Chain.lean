import RecordNode.Encoding.Base58Buffers
import RecordNode.Entry.CanonicalBlock
import RecordNode.Entry.Records
import RecordNode.Fabric.ContentStore

/-! # Access-control chains

A library's address names its manifest, the manifest its wrapper, the wrapper its
write list, each by the hash of its bytes. Creating a library stores the three;
opening one walks them back. The address therefore says what the chain is: no
store that checks its blocks can resolve it to another name, type or write list. -/

namespace RecordNode

open Foundation

/-! ## Addresses -/

def addressPrefix : List Char := "/record/".toList

def isNameChar (c : Char) : Bool := c.isDigit || c.isUpper || c.isLower || c == '-'

/-- `/^[0-9a-zA-Z-]*$/`. -/
def isLibraryName (name : String) : Bool := name.toList.all isNameChar

def validateLibraryName (name : String) : Checked String := do
  require (isLibraryName name) .invalidLibraryName
    s!"library name must match /^[0-9a-zA-Z-]*$/: {name}"
  return name

def discriminatorMaxLength : ℕ := 64

def validateDiscriminator (name : String) : Checked String := do
  let _ ← validateLibraryName name
  require (name.length ≠ 0 ∧ name.length ≤ discriminatorMaxLength) .invalidLibraryName
    s!"a discriminator is 1 to {discriminatorMaxLength} characters: {name}"
  return name

def buildLibraryAddress (manifestCid name : String) : String :=
  String.ofList (addressPrefix ++ manifestCid.toList ++ '/' :: name.toList)

/-- The manifest CID and the name of an address. -/
def parseLibraryAddress (E : Environment) (address : String) : Checked (String × String) :=
  if addressPrefix.isPrefixOf address.toList then
    let rest := address.toList.drop addressPrefix.length
    match rest.dropWhile (· ≠ '/') with
    | [] => refuse .invalidLibraryAddress s!"not a /record/<manifest-cid>/<name> address: {address}"
    | _ :: name => do
      let manifestCid := String.ofList (rest.takeWhile (· ≠ '/'))
      require (E.parsesCid manifestCid) .invalidLibraryAddress s!"address manifest is not a CID: {address}"
      require (!name.contains '/') .invalidLibraryAddress s!"address name contains a separator: {address}"
      return (manifestCid, String.ofList name)
  else refuse .invalidLibraryAddress s!"not a /record/<manifest-cid>/<name> address: {address}"

/-! ## The three objects -/

structure AcChainObject where
  cid : Hash
  bytes : Bytes

def acChainObject (E : Environment) (value : Value) : AcChainObject where
  cid := computeCidString E (E.encode value)
  bytes := E.encode value

def writeListValue (writeKeys : List String) : Value := .record [("write", .array (writeKeys.map .string))]

def wrapperValue (writeListCid : Hash) : Value :=
  .record [("type", .string "static"), ("params", .record [("address", .string writeListCid)])]

def manifestValue (name : String) (type : LibraryType) (wrapperCid : Hash) : Value :=
  .record [("name", .string name), ("type", .string type.name), ("accessController", .string wrapperCid)]

structure AcChain where
  address : String
  writeList : AcChainObject
  wrapper : AcChainObject
  manifest : AcChainObject

def buildAcChain (E : Environment) (name : String) (type : LibraryType) (writeKeys : List String) : AcChain :=
  let writeList := acChainObject E (writeListValue writeKeys)
  let wrapper := acChainObject E (wrapperValue writeList.cid)
  let manifest := acChainObject E (manifestValue name type wrapper.cid)
  ⟨buildLibraryAddress manifest.cid name, writeList, wrapper, manifest⟩

/-- The bytes of the three objects. -/
def AcChain.blocks (chain : AcChain) : List Bytes := [chain.writeList.bytes, chain.wrapper.bytes, chain.manifest.bytes]

/-- A single-key library's address. -/
def deriveLibraryAddress (E : Environment) (key : String) (type : LibraryType) (discriminator : String) : String :=
  (buildAcChain E discriminator type [key]).address

def identityLibraryName : String := "identity"

def identityLibraryAddress (E : Environment) (key : String) : String :=
  deriveLibraryAddress E key .identity identityLibraryName

def validateCompressedPubkey (key : String) : Checked String := do
  require (isCompressedPubkey key) .invalidPublicKey s!"not a compressed secp256k1 pubkey hex: {key}"
  return key

/-- `create_ac_chain`: the write list first, the manifest last. -/
def createAcChain (E : Environment) (store : BlockStore) (name : String) (type : LibraryType)
    (writeKeys : List String) : Checked (AcChain × BlockStore) := do
  let _ ← validateLibraryName name
  let keys ← writeKeys.mapM validateCompressedPubkey
  let chain := buildAcChain E name type keys
  let stored ← putBlock E store chain.writeList.cid chain.writeList.bytes
  let stored ← putBlock E stored chain.wrapper.cid chain.wrapper.bytes
  let stored ← putBlock E stored chain.manifest.cid chain.manifest.bytes
  return (chain, stored)

/-! ## Resolving -/

def hasExactFields (value : Fields) (names : List String) : Bool :=
  value.names.length == names.length && names.all fun name => value.names.contains name

def libraryType? : String → Option LibraryType
  | "recordstore" => some .recordstore
  | "labels" => some .labels
  | "listens" => some .listens
  | "identity" => some .identity
  | _ => none

/-- `fetch_object`; a read that throws counts as a block that is not there. -/
def fetchObject (E : Environment) (get : Hash → Option Bytes) (cid : Hash) (label : String) : Checked Value :=
  match get cid with
  | none => refuse .libraryUnopenable s!"{label} {cid} could not be fetched"
  | some b =>
    match decodeCanonical E b with
    | .ok value => .ok value
    | .error _ => refuse .libraryRejected s!"{label} {cid} does not decode as canonical dag-cbor"

/-- The fields of an object with exactly these names. -/
def exactFields (value : Value) (names : List String) : Option Fields :=
  value.fields?.filter (hasExactFields · names)

def readManifest (value : Value) : Option (String × LibraryType × Hash) := do
  let fields ← exactFields value ["name", "type", "accessController"]
  let name ← fields.string? "name"
  let type ← (fields.string? "type").bind libraryType?
  let wrapperCid ← fields.string? "accessController"
  return (name, type, wrapperCid)

/-- The wrapper's type and the CID of its write list. -/
def readWrapper (value : Value) : Option (String × Hash) := do
  let fields ← exactFields value ["params", "type"]
  let type ← fields.string? "type"
  let params ← (fields.get "params").bind (exactFields · ["address"])
  let writeListCid ← params.string? "address"
  return (type, writeListCid)

def readWriteList (value : Value) : Option (List Value) := do
  let fields ← exactFields value ["write"]
  fields.array? "write"

def asPubkey? (value : Value) : Option String := value.asString?.filter isCompressedPubkey

def resolveAcChain (E : Environment) (get : Hash → Option Bytes) (libraryAddress : String) :
    Checked ResolvedAcChain := do
  let (manifestCid, name) ← parseLibraryAddress E libraryAddress
  let manifest ← fetchObject E get manifestCid "manifest"
  match readManifest manifest with
  | none => refuse .libraryRejected "manifest does not match \x7bname, type, accessController\x7d"
  | some (manifestName, type, wrapperCid) => do
    require (manifestName = name) .libraryRejected s!"manifest name {manifestName} differs from address name {name}"
    let wrapper ← fetchObject E get wrapperCid "AC wrapper"
    match readWrapper wrapper with
    | none => refuse .libraryRejected "AC wrapper does not match \x7bparams: \x7baddress\x7d, type\x7d"
    | some (wrapperType, writeListCid) => do
      require (wrapperType = "static") .unsupportedAcType s!"unrecognised AC type {wrapperType}"
      let writeList ← fetchObject E get writeListCid "write-list"
      match readWriteList writeList with
      | none => refuse .libraryRejected "write-list does not match \x7bwrite: [...]\x7d"
      | some elements =>
        match elements.mapM asPubkey? with
        | none => refuse .libraryRejected "a write-list element is not a compressed pubkey hex"
        | some writeKeys =>
          return ⟨libraryAddress, name, type, writeKeys, manifestCid, wrapperCid, writeListCid⟩

/-! ## Writing an address and reading it back -/

variable {E : Environment}

theorem takeWhile_separator {l m : List Char} (hl : '/' ∉ l) : (l ++ '/' :: m).takeWhile (· ≠ '/') = l := by
  induction l with
  | nil => simp
  | cons c rest ih =>
    rw [List.mem_cons, not_or] at hl
    simpa [Ne.symm hl.1] using ih hl.2

theorem dropWhile_separator {l m : List Char} (hl : '/' ∉ l) : (l ++ '/' :: m).dropWhile (· ≠ '/') = '/' :: m := by
  induction l with
  | nil => simp
  | cons c rest ih =>
    rw [List.mem_cons, not_or] at hl
    simpa [Ne.symm hl.1] using ih hl.2

theorem parseLibraryAddress_build {cid name : String} (hcid : E.parsesCid cid = true) (hc : '/' ∉ cid.toList)
    (hn : '/' ∉ name.toList) : parseLibraryAddress E (buildLibraryAddress cid name) = .ok (cid, name) := by
  have htext : (buildLibraryAddress cid name).toList = addressPrefix ++ (cid.toList ++ '/' :: name.toList) := by
    rw [buildLibraryAddress, String.toList_ofList, List.append_assoc]
  have hstart : addressPrefix.isPrefixOf (buildLibraryAddress cid name).toList = true := by
    rw [htext, List.isPrefixOf_iff_prefix]
    exact List.prefix_append _ _
  rw [parseLibraryAddress, if_pos hstart]
  simp only [htext, List.drop_left, takeWhile_separator hc,
    dropWhile_separator hc, String.ofList_toList, hcid, require]
  simp [hn, bind, Except.bind, pure, Except.pure]

/-- An address that parses is the one built from its parts. -/
theorem parseLibraryAddress_eq_ok {address cid name : String} (h : parseLibraryAddress E address = .ok (cid, name)) :
    address = buildLibraryAddress cid name ∧ E.parsesCid cid = true ∧ '/' ∉ name.toList := by
  unfold parseLibraryAddress at h
  split at h
  case isFalse => simp at h
  case isTrue hstart =>
    dsimp only at h
    obtain ⟨rest, hrest⟩ := List.isPrefixOf_iff_prefix.mp hstart
    rw [← hrest, List.drop_left] at h
    have hsplit := List.takeWhile_append_dropWhile (p := fun c : Char => decide (c ≠ '/')) (l := rest)
    split at h
    case h_1 => simp at h
    case h_2 c tail hdrop =>
      simp only [bind_eq_ok, require_eq_ok_iff] at h
      obtain ⟨-, hparses, -, hname, h⟩ := h
      obtain ⟨rfl, rfl⟩ := Prod.mk.inj (Except.ok.inj h)
      have hc : c = '/' := by
        have hhead := List.head?_dropWhile_not (fun c : Char => decide (c ≠ '/')) rest
        rw [hdrop, List.head?_cons] at hhead
        simpa using hhead
      refine ⟨?_, hparses, by simpa using hname⟩
      rw [hdrop, hc] at hsplit
      rw [buildLibraryAddress, String.toList_ofList, String.toList_ofList, List.append_assoc, hsplit, hrest,
        String.ofList_toList]

theorem separator_ne_digitChar : ∀ d < 58, Base58.digitChar d ≠ '/' := by decide +kernel

theorem separator_notMem_cid (digest : Digest 64) : '/' ∉ (formatProtocolCid digest).toList := by
  intro h
  simp only [formatProtocolCid, String.toList_append, Base58.encode, String.toList_ofList, List.mem_append] at h
  rcases h with h | h | h
  · exact absurd h (by decide)
  · exact absurd (List.eq_of_mem_replicate h) (by decide)
  · obtain ⟨d, hd, heq⟩ := List.mem_map.mp h
    exact separator_ne_digitChar d (Base58.digitsOf_lt _ d hd) heq

theorem separator_notMem_name {name : String} (h : isLibraryName name = true) : '/' ∉ name.toList := by
  intro hm
  have hc := List.all_eq_true.mp h _ hm
  revert hc
  decide

/-! ## What the objects say -/

theorem libraryType?_name (type : LibraryType) : libraryType? type.name = some type := by
  cases type <;> rfl

theorem name_of_libraryType? {text : String} {type : LibraryType} (h : libraryType? text = some type) :
    text = type.name := by
  unfold libraryType? at h
  split at h
  case h_5 => cases h
  all_goals
    obtain rfl := Option.some_inj.mp h
    rfl

theorem readManifest_value (name : String) (type : LibraryType) (wrapperCid : Hash) :
    readManifest (manifestValue name type wrapperCid) = some (name, type, wrapperCid) := by
  simp [readManifest, manifestValue, exactFields, Value.fields?, Option.filter_some, hasExactFields, Fields.names, Fields.string?,
    Fields.get, List.lookup_cons, Value.asString?, libraryType?_name]

theorem readWrapper_value (writeListCid : Hash) :
    readWrapper (wrapperValue writeListCid) = some ("static", writeListCid) := by
  simp [readWrapper, wrapperValue, exactFields, Value.fields?, Option.filter_some, hasExactFields, Fields.names, Fields.string?,
    Fields.get, List.lookup_cons, Value.asString?]

theorem readWriteList_value (writeKeys : List String) :
    readWriteList (writeListValue writeKeys) = some (writeKeys.map .string) := by
  simp [readWriteList, writeListValue, exactFields, Value.fields?, Option.filter_some, hasExactFields, Fields.names, Fields.array?,
    Fields.get, Value.asArray?]

theorem mapM_asPubkey? {writeKeys : List String} (h : ∀ key ∈ writeKeys, isCompressedPubkey key = true) :
    (writeKeys.map Value.string).mapM asPubkey? = some writeKeys := by
  induction writeKeys with
  | nil => rfl
  | cons key rest ih =>
    have hrest := ih fun k hk => h k (List.mem_cons_of_mem _ hk)
    simp [asPubkey?, Value.asString?, Option.filter_some, h key List.mem_cons_self, hrest]

theorem canonical_strings (texts : List String) : (Value.array (texts.map .string)).Canonical := by
  refine .array _ fun v hv => ?_
  obtain ⟨text, -, rfl⟩ := List.mem_map.mp hv
  exact .string text

theorem writeListValue_canonical (writeKeys : List String) : (writeListValue writeKeys).Canonical :=
  .record _ (List.pairwise_singleton _ _) (by simpa using canonical_strings writeKeys)

theorem wrapperValue_canonical (writeListCid : Hash) : (wrapperValue writeListCid).Canonical := by
  have hparams : (Value.record [("address", .string writeListCid)]).Canonical :=
    .record _ (List.pairwise_singleton _ _) (by simpa using Value.Canonical.string writeListCid)
  refine .record _ (by simp; decide) ?_
  simp only [List.forall_mem_cons]
  exact ⟨.string _, hparams, by simp⟩

theorem manifestValue_canonical (name : String) (type : LibraryType) (wrapperCid : Hash) :
    (manifestValue name type wrapperCid).Canonical := by
  refine .record _ (by simp; decide) ?_
  simp [Value.Canonical.string]

/-! ## A small environment -/

namespace ChainSample

/-- A digest that tells the three kinds of object apart, and manifests by the length of their name. -/
def kindDigest (value : Option Value) : Digest 64 where
  bytes := List.replicate 63 (UInt8.ofNat ((value.bind Value.fields?).getD []).length) ++
    [UInt8.ofNat (((value.bind Value.fields?).bind (·.string? "name")).getD "").length]
  length_eq := by rw [List.length_append, List.length_replicate, List.length_singleton]

def environment : Environment :=
  { orderedEnvironment with
    sha3 := fun b => kindDigest (orderedEnvironment.decode b)
    parsesCid := isProtocolCid }

theorem environment_codecLaw : environment.CodecLaw := orderedEnvironment_codecLaw

theorem environment_mapLaw : environment.MapLaw := ⟨orderedEnvironment_mapLaw.order, orderedEnvironment_mapLaw.links⟩

theorem sha3_encode {v : Value} (hv : v.Canonical) : environment.sha3 (environment.encode v) = kindDigest (some v) :=
  congrArg kindDigest (orderedEnvironment_codecLaw v hv)

def ownerKey : String := Plain.publicKey [1]

def chain (name : String) : AcChain := buildAcChain environment name .recordstore [ownerKey]

def blocks : Set Bytes := {b | b ∈ (chain "music").blocks ∨ b ∈ (chain "talk").blocks}

theorem mem_blocks {b : Bytes} (h : b ∈ blocks) : ∃ v : Value, v.Canonical ∧ b = environment.encode v ∧
    (v = writeListValue [ownerKey] ∨ v = wrapperValue (chain "music").writeList.cid ∨
      v = manifestValue "music" .recordstore (chain "music").wrapper.cid ∨
      v = manifestValue "talk" .recordstore (chain "music").wrapper.cid) := by
  simp only [blocks, AcChain.blocks, Set.mem_ofPred_eq, List.mem_cons, List.not_mem_nil, or_false] at h
  rcases h with (rfl | rfl | rfl) | (rfl | rfl | rfl)
  · exact ⟨_, writeListValue_canonical _, rfl, .inl rfl⟩
  · exact ⟨_, wrapperValue_canonical _, rfl, .inr (.inl rfl)⟩
  · exact ⟨_, manifestValue_canonical .., rfl, .inr (.inr (.inl rfl))⟩
  · exact ⟨_, writeListValue_canonical _, rfl, .inl rfl⟩
  · exact ⟨_, wrapperValue_canonical _, rfl, .inr (.inl rfl)⟩
  · exact ⟨_, manifestValue_canonical .., rfl, .inr (.inr (.inr rfl))⟩

theorem sha3_injOn : Set.InjOn environment.sha3 blocks := by
  intro b hb c hc h
  obtain ⟨v, hv, rfl, hcase⟩ := mem_blocks hb
  obtain ⟨w, hw, rfl, hcase'⟩ := mem_blocks hc
  rw [sha3_encode hv, sha3_encode hw] at h
  by_contra hne
  have hvw : v ≠ w := fun heq => hne (congrArg environment.encode heq)
  have hkinds := congrArg (fun d => (d.bytes.head?, d.bytes.getLast?)) h
  have hnames : UInt8.ofNat "music".length ≠ UInt8.ofNat "talk".length := by decide
  rcases hcase with rfl | rfl | rfl | rfl <;> rcases hcase' with rfl | rfl | rfl | rfl
  all_goals first | exact hvw rfl | exact absurd hkinds (by simp [kindDigest, writeListValue, wrapperValue, manifestValue,
    Value.fields?, Fields.string?, Fields.get, List.lookup_cons, Value.asString?, hnames, hnames.symm])

theorem environment_parsesCid (digest : Digest 64) : environment.parsesCid (formatProtocolCid digest) = true := by
  rw [show environment.parsesCid = isProtocolCid from rfl]
  exact isProtocolCid_formatProtocolCid digest

theorem music_blocks : ∀ b ∈ (chain "music").blocks, b ∈ blocks := fun _ hb => .inl hb

theorem talk_blocks : ∀ b ∈ (chain "talk").blocks, b ∈ blocks := fun _ hb => .inr hb

theorem ownerKey_compressed : ∀ key ∈ [ownerKey], isCompressedPubkey key = true := by
  intro key hkey
  rw [List.mem_singleton.mp hkey]
  exact Plain.isCompressedPubkey_publicKey [1]

theorem empty_addressed : Addressed environment blocks .empty := by
  intro h b hb
  simp at hb

end ChainSample

/-! ## Creating, then resolving -/

/-- The chain that creation describes, as opening a library returns it. -/
def resolvedChain (E : Environment) (name : String) (type : LibraryType) (writeKeys : List String) : ResolvedAcChain :=
  let chain := buildAcChain E name type writeKeys
  ⟨chain.address, name, type, writeKeys, chain.manifest.cid, chain.wrapper.cid, chain.writeList.cid⟩

theorem fetchObject_encode (hE : E.CodecLaw) {v : Value} (hv : v.Canonical) {get : Hash → Option Bytes} {cid : Hash}
    (hget : get cid = some (E.encode v)) (label : String) : fetchObject E get cid label = .ok v := by
  simp [fetchObject, hget, decodeCanonical, hE v hv]

theorem resolveAcChain_build (hE : E.CodecLaw) (hcid : ∀ digest, E.parsesCid (formatProtocolCid digest) = true)
    {name : String} {type : LibraryType} {writeKeys : List String} (hname : isLibraryName name = true)
    (hkeys : ∀ key ∈ writeKeys, isCompressedPubkey key = true) {get : Hash → Option Bytes}
    (hlist : get (buildAcChain E name type writeKeys).writeList.cid =
      some (buildAcChain E name type writeKeys).writeList.bytes)
    (hwrapper : get (buildAcChain E name type writeKeys).wrapper.cid =
      some (buildAcChain E name type writeKeys).wrapper.bytes)
    (hmanifest : get (buildAcChain E name type writeKeys).manifest.cid =
      some (buildAcChain E name type writeKeys).manifest.bytes) :
    resolveAcChain E get (buildAcChain E name type writeKeys).address = .ok (resolvedChain E name type writeKeys) := by
  have hparse : parseLibraryAddress E (buildAcChain E name type writeKeys).address =
      .ok ((buildAcChain E name type writeKeys).manifest.cid, name) :=
    parseLibraryAddress_build (hcid _) (separator_notMem_cid _) (separator_notMem_name hname)
  have hm := fetchObject_encode hE (manifestValue_canonical name type _) hmanifest "manifest"
  have hw := fetchObject_encode hE (wrapperValue_canonical _) hwrapper "AC wrapper"
  have hl := fetchObject_encode hE (writeListValue_canonical writeKeys) hlist "write-list"
  simp only [resolveAcChain, hparse, bind, Except.bind, hm, readManifest_value, require, decide_true, if_true]
  simp only [show (acChainObject E (wrapperValue (acChainObject E (writeListValue writeKeys)).cid)).cid =
    (buildAcChain E name type writeKeys).wrapper.cid from rfl, hw, readWrapper_value, decide_true, if_true]
  simp only [show (acChainObject E (writeListValue writeKeys)).cid =
    (buildAcChain E name type writeKeys).writeList.cid from rfl, hl, readWriteList_value, mapM_asPubkey? hkeys]
  rfl

theorem mapM_validateCompressedPubkey {writeKeys : List String}
    (h : ∀ key ∈ writeKeys, isCompressedPubkey key = true) :
    writeKeys.mapM validateCompressedPubkey = .ok writeKeys := by
  induction writeKeys with
  | nil => rfl
  | cons key rest ih =>
    have hrest := ih fun k hk => h k (List.mem_cons_of_mem _ hk)
    simp [validateCompressedPubkey, require, h key List.mem_cons_self, hrest, bind, Except.bind, pure, Except.pure]

theorem putBlock_object (store : BlockStore) (value : Value) :
    putBlock E store (acChainObject E value).cid (acChainObject E value).bytes =
      .ok (store.set (acChainObject E value).cid (acChainObject E value).bytes) := by
  simp [putBlock, acChainObject, require, bind, Except.bind, pure, Except.pure]

theorem createAcChain_eq_ok {store : BlockStore} {name : String} {type : LibraryType} {writeKeys : List String}
    (hname : isLibraryName name = true) (hkeys : ∀ key ∈ writeKeys, isCompressedPubkey key = true) :
    createAcChain E store name type writeKeys = .ok (buildAcChain E name type writeKeys,
      ((store.set (buildAcChain E name type writeKeys).writeList.cid
        (buildAcChain E name type writeKeys).writeList.bytes).set (buildAcChain E name type writeKeys).wrapper.cid
        (buildAcChain E name type writeKeys).wrapper.bytes).set (buildAcChain E name type writeKeys).manifest.cid
        (buildAcChain E name type writeKeys).manifest.bytes) := by
  simp only [createAcChain, validateLibraryName, hname, require, mapM_validateCompressedPubkey hkeys, if_true, bind,
    Except.bind, pure, Except.pure, buildAcChain, putBlock_object]

/-- A created library opens: the three blocks land beside what the store had, and every store that
keeps them resolves the address to the name, type and write list it was created with. -/
theorem ac_chain_round_trip (hE : E.CodecLaw) (hcid : ∀ digest, E.parsesCid (formatProtocolCid digest) = true)
    {U : Set Bytes} (hinj : Set.InjOn E.sha3 U) {store : BlockStore} (ha : Addressed E U store) {name : String}
    {type : LibraryType} {writeKeys : List String} (hname : isLibraryName name = true)
    (hkeys : ∀ key ∈ writeKeys, isCompressedPubkey key = true)
    (hU : ∀ b ∈ (buildAcChain E name type writeKeys).blocks, b ∈ U) :
    ∃ later, createAcChain E store name type writeKeys = .ok (buildAcChain E name type writeKeys, later) ∧
      Addressed E U later ∧ Grows store later ∧ ∀ grown, Grows later grown →
        resolveAcChain E grown.get (buildAcChain E name type writeKeys).address =
          .ok (resolvedChain E name type writeKeys) := by
  obtain ⟨hlist, hwrapper, hmanifest⟩ : (buildAcChain E name type writeKeys).writeList.bytes ∈ U ∧
      (buildAcChain E name type writeKeys).wrapper.bytes ∈ U ∧
      (buildAcChain E name type writeKeys).manifest.bytes ∈ U := by simpa [AcChain.blocks] using hU
  obtain ⟨ha1, hg1, hget1⟩ := putBlock_spec hinj ha hlist (putBlock_object store _)
  obtain ⟨ha2, hg2, hget2⟩ := putBlock_spec hinj ha1 hwrapper (putBlock_object _ _)
  obtain ⟨ha3, hg3, hget3⟩ := putBlock_spec hinj ha2 hmanifest (putBlock_object _ _)
  refine ⟨_, createAcChain_eq_ok hname hkeys, ha3, fun h b hb => hg3 h b (hg2 h b (hg1 h b hb)), fun grown hgrown => ?_⟩
  exact resolveAcChain_build hE hcid hname hkeys (hgrown _ _ (hg3 _ _ (hg2 _ _ hget1)))
    (hgrown _ _ (hg3 _ _ hget2)) (hgrown _ _ hget3)

open ChainSample in
theorem ac_chain_round_trip_music :
    ∃ later, createAcChain environment .empty "music" .recordstore [ownerKey] = .ok (chain "music", later) ∧
      resolveAcChain environment later.get (chain "music").address =
        .ok (resolvedChain environment "music" .recordstore [ownerKey]) := by
  obtain ⟨later, hcreate, -, -, hresolve⟩ := ac_chain_round_trip environment_codecLaw environment_parsesCid sha3_injOn
    empty_addressed (by decide) ownerKey_compressed music_blocks
  exact ⟨later, hcreate, hresolve later fun _ _ h => h⟩

/-! ## What an address can resolve to -/

/-- A store that checks its blocks: what sits under a protocol CID hashes to it. -/
def Verified (E : Environment) (U : Set Bytes) (get : Hash → Option Bytes) : Prop :=
  ∀ digest b, get (formatProtocolCid digest) = some b → E.sha3 b = digest ∧ b ∈ U

def protocolCids (chain : ResolvedAcChain) : Bool :=
  isProtocolCid chain.manifestCid && isProtocolCid chain.wrapperCid && isProtocolCid chain.writeListCid

/-- The block under this CID is the canonical encoding of the value. -/
def Fetched (E : Environment) (get : Hash → Option Bytes) (cid : Hash) (value : Value) : Prop :=
  ∃ b, get cid = some b ∧ E.decode b = some value ∧ E.encode value = b

/-- Everything a resolution reads. -/
structure Resolution (E : Environment) (get : Hash → Option Bytes) (address : String) (chain : ResolvedAcChain)
    (manifest wrapper writeList : Value) : Prop where
  address_eq : chain.address = address
  parsed : parseLibraryAddress E address = .ok (chain.manifestCid, chain.name)
  manifest_at : Fetched E get chain.manifestCid manifest
  manifest_eq : readManifest manifest = some (chain.name, chain.type, chain.wrapperCid)
  wrapper_at : Fetched E get chain.wrapperCid wrapper
  wrapper_eq : readWrapper wrapper = some ("static", chain.writeListCid)
  writeList_at : Fetched E get chain.writeListCid writeList
  writeList_eq : (readWriteList writeList).bind (List.mapM asPubkey?) = some chain.writeList

theorem fetchObject_eq_ok {get : Hash → Option Bytes} {cid : Hash} {label : String} {v : Value}
    (h : fetchObject E get cid label = .ok v) : Fetched E get cid v := by
  unfold fetchObject at h
  split at h
  case h_1 => simp at h
  case h_2 b hb =>
    unfold decodeCanonical at h
    cases hd : E.decode b with
    | none => simp [hd, refuse] at h
    | some value =>
      by_cases he : E.encode value = b
      · simp only [hd, he, if_true] at h
        obtain rfl := Except.ok.inj h
        exact ⟨b, hb, hd, he⟩
      · simp [hd, he, refuse] at h

theorem resolveAcChain_eq_ok {get : Hash → Option Bytes} {address : String} {chain : ResolvedAcChain}
    (h : resolveAcChain E get address = .ok chain) :
    ∃ manifest wrapper writeList, Resolution E get address chain manifest wrapper writeList := by
  simp only [resolveAcChain, bind_eq_ok] at h
  obtain ⟨⟨manifestCid, name⟩, hparse, manifest, hmanifest, h⟩ := h
  cases hm : readManifest manifest with
  | none => simp [hm] at h
  | some parts =>
    obtain ⟨manifestName, type, wrapperCid⟩ := parts
    simp only [hm, bind_eq_ok, require_eq_ok_iff, decide_eq_true_eq] at h
    obtain ⟨-, rfl, wrapper, hwrapper, h⟩ := h
    cases hw : readWrapper wrapper with
    | none => simp [hw] at h
    | some parts =>
      obtain ⟨wrapperType, writeListCid⟩ := parts
      simp only [hw, bind_eq_ok, require_eq_ok_iff, decide_eq_true_eq] at h
      obtain ⟨-, rfl, writeList, hlist, h⟩ := h
      cases hl : readWriteList writeList with
      | none => simp [hl] at h
      | some elements =>
        cases hk : elements.mapM asPubkey? with
        | none => simp [hl, hk] at h
        | some writeKeys =>
          simp only [hl, hk] at h
          obtain rfl := Except.ok.inj h
          exact ⟨manifest, wrapper, writeList, rfl, hparse, fetchObject_eq_ok hmanifest, hm,
            fetchObject_eq_ok hwrapper, hw, fetchObject_eq_ok hlist, by rw [hl]; exact hk⟩

theorem exactFields_eq_some {v : Value} {fields : Fields} {names : List String} (hn : names.Nodup)
    (h : exactFields v names = some fields) : v.fields? = some fields ∧ fields.names.Perm names := by
  obtain ⟨hfields, hexact⟩ := Option.filter_eq_some_iff.mp h
  simp only [hasExactFields, Bool.and_eq_true, beq_iff_eq, List.all_eq_true, List.contains_iff_mem] at hexact
  refine ⟨hfields, names_perm hn ?_ hexact.2⟩
  rw [← hexact.1, Fields.names, List.length_map]

/-- An object with exactly these fields is the map that lists them. -/
theorem sorted_of_exactFields {v : Value} {fields : Fields} {names : List String} (hn : names.Nodup)
    (h : exactFields v names = some fields) (hplain : v.linksPlain = true) (name : String) (hname : name ∈ names)
    (hcid : name ∉ cidProperties) (hindex : ∀ i < names.length, toString i ≠ name) :
    v = .record fields ∧
      v.sorted = (Value.record (names.map fun name => (name, (fields.get name).getD .null))).sorted := by
  obtain ⟨hfields, hperm⟩ := exactFields_eq_some hn h
  have hlength : fields.length = names.length := by simpa [Fields.names] using hperm.length_eq
  have hv : v = .record fields :=
    eq_record_of_fields hfields hplain (hperm.mem_iff.mpr hname) hcid (hlength ▸ hindex)
  refine ⟨hv, ?_⟩
  rw [hv]
  refine sorted_record_of_perm (fields_perm hperm hn) ?_
  simpa [Fields.names, Function.comp_def] using hn

theorem readManifest_sorted {v : Value} (hplain : v.linksPlain = true) {name : String} {type : LibraryType}
    {wrapperCid : Hash} (h : readManifest v = some (name, type, wrapperCid)) :
    v.sorted = (manifestValue name type wrapperCid).sorted := by
  simp only [readManifest, Option.bind_eq_bind, Option.bind_eq_some_iff] at h
  obtain ⟨fields, hfields, n, hn, t, ⟨text, htext, ht⟩, w, hw, h⟩ := h
  obtain ⟨rfl, rfl, rfl⟩ : n = name ∧ t = type ∧ w = wrapperCid := by simpa using h
  have hsorted := (sorted_of_exactFields (by decide) hfields hplain "name" (by decide) (by decide) (by decide)).2
  simpa [get_of_string hn, get_of_string htext, get_of_string hw, name_of_libraryType? ht, manifestValue] using hsorted

theorem readWrapper_sorted {v : Value} (hplain : v.linksPlain = true) {type : String} {writeListCid : Hash}
    (h : readWrapper v = some (type, writeListCid)) :
    v.sorted = (Value.record [("type", .string type), ("params", .record [("address", .string writeListCid)])]).sorted := by
  simp only [readWrapper, Option.bind_eq_bind, Option.bind_eq_some_iff] at h
  obtain ⟨fields, hfields, t, ht, params, ⟨p, hp, hparams⟩, w, hw, h⟩ := h
  obtain ⟨rfl, rfl⟩ : t = type ∧ w = writeListCid := by simpa using h
  obtain ⟨rfl, hsorted⟩ :=
    sorted_of_exactFields (by decide) hfields hplain "params" (by decide) (by decide) (by decide)
  have hnodup : fields.names.Nodup := (exactFields_eq_some (by decide) hfields).2.nodup_iff.mpr (by decide)
  have hinner := (sorted_of_exactFields (by decide) hparams (linksPlain_of_get hplain hnodup hp) "address"
    (by decide) (by decide) (by decide)).2
  have hvalue : p.sorted = (Value.record [("address", .string w)]).sorted := by
    simpa [get_of_string hw] using hinner
  calc (Value.record fields).sorted
      = (Value.record [("params", p), ("type", .string t)]).sorted := by
        simpa [hp, get_of_string ht] using hsorted
    _ = (Value.record [("type", .string t), ("params", p)]).sorted :=
        sorted_record_of_perm (List.Perm.swap _ _ _) (by simp [Fields.names])
    _ = (Value.record [("type", .string t), ("params", .record [("address", .string w)])]).sorted := by
        simp only [Value.sorted, sortedValues, hvalue]

theorem mapM_asPubkey?_eq_some {elements : List Value} {writeKeys : List String}
    (h : elements.mapM asPubkey? = some writeKeys) :
    elements = writeKeys.map .string ∧ ∀ key ∈ writeKeys, isCompressedPubkey key = true := by
  induction elements generalizing writeKeys with
  | nil =>
    obtain rfl : writeKeys = [] := by simpa using h.symm
    simp
  | cons v rest ih =>
    simp only [List.mapM_cons, Option.bind_eq_bind, Option.bind_eq_some_iff] at h
    obtain ⟨key, hkey, tail, htail, h⟩ := h
    obtain rfl := Option.some.inj h
    obtain ⟨htext, hshape⟩ := Option.filter_eq_some_iff.mp hkey
    obtain ⟨hrest, hall⟩ := ih htail
    rw [hrest]
    cases v <;> simp [Value.asString?] at htext
    subst htext
    exact ⟨rfl, List.forall_mem_cons.mpr ⟨hshape, hall⟩⟩

theorem readWriteList_sorted {v : Value} (hplain : v.linksPlain = true) {writeKeys : List String}
    (h : (readWriteList v).bind (List.mapM asPubkey?) = some writeKeys) :
    v.sorted = (writeListValue writeKeys).sorted ∧ ∀ key ∈ writeKeys, isCompressedPubkey key = true := by
  obtain ⟨elements, hread, hkeys⟩ := Option.bind_eq_some_iff.mp h
  obtain ⟨rfl, hshape⟩ := mapM_asPubkey?_eq_some hkeys
  simp only [readWriteList, Option.bind_eq_bind, Option.bind_eq_some_iff] at hread
  obtain ⟨fields, hfields, harray⟩ := hread
  obtain ⟨items, hitems, htext⟩ := Option.bind_eq_some_iff.mp harray
  cases items <;> simp [Value.asArray?] at htext
  subst htext
  have hsorted := (sorted_of_exactFields (by decide) hfields hplain "write" (by decide) (by decide) (by decide)).2
  exact ⟨by simpa [hitems, writeListValue] using hsorted, hshape⟩

/-- A fetched value under a protocol CID of a store that checks its blocks is named by its own encoding. -/
theorem Fetched.cid_eq (law : E.MapLaw) {U : Set Bytes} {get : Hash → Option Bytes} (hget : Verified E U get)
    {cid : Hash} (hcid : isProtocolCid cid = true) {v w : Value} (h : Fetched E get cid v) (hs : v.sorted = w.sorted) :
    cid = (acChainObject E w).cid := by
  obtain ⟨digest, rfl⟩ := (Base58.isProtocolCid_iff cid).mp hcid
  obtain ⟨b, hb, -, hencode⟩ := h
  rw [acChainObject, computeCidString, ← law.order v w hs, hencode, (hget digest b hb).1]

theorem Fetched.linksPlain (law : E.MapLaw) {get : Hash → Option Bytes} {cid : Hash} {v : Value}
    (h : Fetched E get cid v) : v.linksPlain = true := by
  obtain ⟨b, -, hdecode, -⟩ := h
  exact law.links b v hdecode

/-- Two checked stores have the same value under one protocol CID. -/
theorem Fetched.unique {U : Set Bytes} (hinj : Set.InjOn E.sha3 U) {get other : Hash → Option Bytes}
    (hget : Verified E U get) (hother : Verified E U other) {cid : Hash} (hcid : isProtocolCid cid = true)
    {v w : Value} (hv : Fetched E get cid v) (hw : Fetched E other cid w) : v = w := by
  obtain ⟨digest, rfl⟩ := (Base58.isProtocolCid_iff cid).mp hcid
  obtain ⟨b, hb, hdecode, -⟩ := hv
  obtain ⟨c, hc, hdecode', -⟩ := hw
  obtain ⟨hdigest, hbU⟩ := hget digest b hb
  obtain ⟨hdigest', hcU⟩ := hother digest c hc
  obtain rfl := hinj hbU hcU (hdigest.trans hdigest'.symm)
  exact Option.some_inj.mp (hdecode.symm.trans hdecode')

/-- What resolves is what the address was built from. -/
theorem Resolution.eq_resolvedChain (law : E.MapLaw) {U : Set Bytes} {get : Hash → Option Bytes}
    (hget : Verified E U get) {address : String} {chain : ResolvedAcChain} {manifest wrapper writeList : Value}
    (r : Resolution E get address chain manifest wrapper writeList) (hcids : protocolCids chain = true) :
    address = (buildAcChain E chain.name chain.type chain.writeList).address ∧
      chain = resolvedChain E chain.name chain.type chain.writeList ∧
      ∀ key ∈ chain.writeList, isCompressedPubkey key = true := by
  simp only [protocolCids, Bool.and_eq_true] at hcids
  obtain ⟨hl, hkeys⟩ := readWriteList_sorted (r.writeList_at.linksPlain law) r.writeList_eq
  have hlist := r.writeList_at.cid_eq law hget hcids.2 hl
  have hw := r.wrapper_at.cid_eq law hget hcids.1.2 (readWrapper_sorted (r.wrapper_at.linksPlain law) r.wrapper_eq)
  have hm := r.manifest_at.cid_eq law hget hcids.1.1 (readManifest_sorted (r.manifest_at.linksPlain law) r.manifest_eq)
  have hwrapper : chain.wrapperCid = (buildAcChain E chain.name chain.type chain.writeList).wrapper.cid := by
    rw [hw, hlist]
    rfl
  have hmanifest : chain.manifestCid = (buildAcChain E chain.name chain.type chain.writeList).manifest.cid := by
    rw [hm, hwrapper]
    rfl
  have haddress : address = (buildAcChain E chain.name chain.type chain.writeList).address := by
    rw [(parseLibraryAddress_eq_ok r.parsed).1, hmanifest]
    rfl
  refine ⟨haddress, ?_, hkeys⟩
  have hself := r.address_eq.trans haddress
  cases chain
  simp only [resolvedChain, ResolvedAcChain.mk.injEq]
  exact ⟨hself, trivial, trivial, trivial, hmanifest, hwrapper, hlist⟩

/-- Two checked stores resolve an address to one chain. -/
theorem Resolution.unique {U : Set Bytes} (hinj : Set.InjOn E.sha3 U) {get other : Hash → Option Bytes}
    (hget : Verified E U get) (hother : Verified E U other) {address : String} {chain found : ResolvedAcChain}
    {m w l m' w' l' : Value} (r : Resolution E get address chain m w l) (r' : Resolution E other address found m' w' l')
    (hcids : protocolCids chain = true) : found = chain := by
  simp only [protocolCids, Bool.and_eq_true] at hcids
  obtain ⟨hmanifestCid, hname⟩ := Prod.mk.inj (Except.ok.inj (r.parsed.symm.trans r'.parsed))
  have hm := r'.manifest_at
  rw [← hmanifestCid] at hm
  have hread := r'.manifest_eq
  rw [← r.manifest_at.unique hinj hget hother hcids.1.1 hm, r.manifest_eq, Option.some_inj, Prod.mk.injEq,
    Prod.mk.injEq] at hread
  obtain ⟨-, htype, hwrapperCid⟩ := hread
  have hw := r'.wrapper_at
  rw [← hwrapperCid] at hw
  have hread := r'.wrapper_eq
  rw [← r.wrapper_at.unique hinj hget hother hcids.1.2 hw, r.wrapper_eq, Option.some_inj, Prod.mk.injEq] at hread
  have hlistCid := hread.2
  have hl := r'.writeList_at
  rw [← hlistCid] at hl
  have hread := r'.writeList_eq
  rw [← r.writeList_at.unique hinj hget hother hcids.2 hl, r.writeList_eq, Option.some_inj] at hread
  have haddress := r'.address_eq.trans r.address_eq.symm
  cases chain
  cases found
  simp only [ResolvedAcChain.mk.injEq]
  exact ⟨haddress, hname.symm, htype.symm, hread.symm, hmanifestCid.symm, hwrapperCid.symm, hlistCid.symm⟩

/-- An address commits to its chain. Whatever a store that checks its blocks resolves under protocol
CIDs is the chain whose creation gives the address, with compressed keys only, and no other checked
store resolves the address to anything else. -/
theorem resolved_chain_committed (law : E.MapLaw) {U : Set Bytes} (hinj : Set.InjOn E.sha3 U)
    {get : Hash → Option Bytes} (hget : Verified E U get) {address : String} {chain : ResolvedAcChain}
    (h : resolveAcChain E get address = .ok chain) (hcids : protocolCids chain = true) :
    address = (buildAcChain E chain.name chain.type chain.writeList).address ∧
      chain = resolvedChain E chain.name chain.type chain.writeList ∧
      (∀ key ∈ chain.writeList, isCompressedPubkey key = true) ∧
      ∀ other, Verified E U other → ∀ found, resolveAcChain E other address = .ok found → found = chain := by
  obtain ⟨manifest, wrapper, writeList, r⟩ := resolveAcChain_eq_ok h
  obtain ⟨haddress, hchain, hkeys⟩ := r.eq_resolvedChain law hget hcids
  refine ⟨haddress, hchain, hkeys, fun other hother found hf => ?_⟩
  obtain ⟨manifest', wrapper', writeList', r'⟩ := resolveAcChain_eq_ok hf
  exact r.unique hinj hget hother r' hcids

namespace ChainSample

/-- The three blocks, each under its hash. -/
def musicStore (h : Hash) : Option Bytes := (chain "music").blocks.find? fun b => computeCidString environment b = h

theorem musicStore_verified : Verified environment blocks musicStore := by
  intro digest b hb
  have hcid : computeCidString environment b = formatProtocolCid digest := by simpa using List.find?_some hb
  exact ⟨formatProtocolCid_injective hcid, .inl (List.mem_of_find?_eq_some hb)⟩

theorem musicStore_get {b : Bytes} (hb : b ∈ (chain "music").blocks) :
    musicStore (computeCidString environment b) = some b := by
  cases h : musicStore (computeCidString environment b) with
  | none => simpa using List.find?_eq_none.mp h b hb
  | some c =>
    obtain ⟨hdigest, hc⟩ := musicStore_verified _ _ h
    rw [sha3_injOn hc (.inl hb) hdigest]

theorem musicStore_resolves : resolveAcChain environment musicStore (chain "music").address =
    .ok (resolvedChain environment "music" .recordstore [ownerKey]) :=
  resolveAcChain_build environment_codecLaw environment_parsesCid (by decide) ownerKey_compressed
    (musicStore_get (List.mem_cons_self ..)) (musicStore_get (List.mem_cons_of_mem _ (List.mem_cons_self ..)))
    (musicStore_get (List.mem_cons_of_mem _ (List.mem_cons_of_mem _ (List.mem_cons_self ..))))

end ChainSample

open ChainSample in
theorem resolved_chain_committed_music :
    resolveAcChain environment musicStore (chain "music").address = .ok (resolvedChain environment "music" .recordstore [ownerKey]) ∧
      ∀ other, Verified environment blocks other → ∀ found,
        resolveAcChain environment other (chain "music").address = .ok found →
          found = resolvedChain environment "music" .recordstore [ownerKey] := by
  have hcids : protocolCids (resolvedChain environment "music" .recordstore [ownerKey]) = true := by
    simp [protocolCids, resolvedChain, buildAcChain, acChainObject, computeCidString, isProtocolCid_formatProtocolCid]
  exact ⟨musicStore_resolves,
    (resolved_chain_committed environment_mapLaw sha3_injOn musicStore_verified musicStore_resolves hcids).2.2.2⟩

/-! ## No two libraries share an address -/

theorem buildLibraryAddress_inj {cid cid' name name' : String} (hc : '/' ∉ cid.toList) (hc' : '/' ∉ cid'.toList)
    (h : buildLibraryAddress cid name = buildLibraryAddress cid' name') : cid = cid' ∧ name = name' := by
  have htext := congrArg String.toList h
  simp only [buildLibraryAddress, String.toList_ofList, List.append_assoc] at htext
  have hrest := List.append_cancel_left htext
  have hcid := congrArg (List.takeWhile (· ≠ '/')) hrest
  have hname := congrArg (List.dropWhile (· ≠ '/')) hrest
  rw [takeWhile_separator hc, takeWhile_separator hc'] at hcid
  rw [dropWhile_separator hc, dropWhile_separator hc'] at hname
  exact ⟨String.toList_inj.mp hcid, String.toList_inj.mp (List.cons.inj hname).2⟩

theorem acChainObject_inj (hE : E.CodecLaw) {U : Set Bytes} (hinj : Set.InjOn E.sha3 U) {v w : Value}
    (hv : v.Canonical) (hw : w.Canonical) (hvU : (acChainObject E v).bytes ∈ U) (hwU : (acChainObject E w).bytes ∈ U)
    (h : (acChainObject E v).cid = (acChainObject E w).cid) : v = w := by
  have hbytes : E.encode v = E.encode w := hinj hvU hwU (formatProtocolCid_injective h)
  have hdecode := hE v hv
  rw [hbytes, hE w hw] at hdecode
  exact (Option.some_inj.mp hdecode).symm

/-- Where digests do not collide, two chains with one address have one name, type and write list. -/
theorem buildAcChain_injective (hE : E.CodecLaw) {U : Set Bytes} (hinj : Set.InjOn E.sha3 U) {name name' : String}
    {type type' : LibraryType} {writeKeys writeKeys' : List String}
    (hU : ∀ b ∈ (buildAcChain E name type writeKeys).blocks, b ∈ U)
    (hU' : ∀ b ∈ (buildAcChain E name' type' writeKeys').blocks, b ∈ U)
    (h : (buildAcChain E name type writeKeys).address = (buildAcChain E name' type' writeKeys').address) :
    name = name' ∧ type = type' ∧ writeKeys = writeKeys' := by
  simp only [AcChain.blocks, List.forall_mem_cons] at hU hU'
  obtain ⟨hl, hw, hm, -⟩ := hU
  obtain ⟨hl', hw', hm', -⟩ := hU'
  obtain ⟨hcid, rfl⟩ := buildLibraryAddress_inj (separator_notMem_cid _) (separator_notMem_cid _) h
  have hmanifest := acChainObject_inj hE hinj (manifestValue_canonical ..) (manifestValue_canonical ..) hm hm' hcid
  have hread := congrArg readManifest hmanifest
  rw [readManifest_value, readManifest_value, Option.some_inj, Prod.mk.injEq, Prod.mk.injEq] at hread
  obtain ⟨-, rfl, hwrapperCid⟩ := hread
  have hwrapper := acChainObject_inj hE hinj (wrapperValue_canonical _) (wrapperValue_canonical _) hw hw' hwrapperCid
  have hread := congrArg readWrapper hwrapper
  rw [readWrapper_value, readWrapper_value, Option.some_inj, Prod.mk.injEq] at hread
  have hlist := acChainObject_inj hE hinj (writeListValue_canonical _) (writeListValue_canonical _) hl hl' hread.2
  have hread := congrArg readWriteList hlist
  rw [readWriteList_value, readWriteList_value, Option.some_inj] at hread
  exact ⟨rfl, rfl, List.map_injective_iff.mpr (fun _ _ => Value.string.inj) hread⟩

/-- Libraries of one key, type and discriminator share an address, and no others do. -/
theorem derive_library_address_injective (hE : E.CodecLaw) {U : Set Bytes} (hinj : Set.InjOn E.sha3 U)
    {key key' discriminator discriminator' : String} {type type' : LibraryType}
    (hU : ∀ b ∈ (buildAcChain E discriminator type [key]).blocks, b ∈ U)
    (hU' : ∀ b ∈ (buildAcChain E discriminator' type' [key']).blocks, b ∈ U) :
    deriveLibraryAddress E key type discriminator = deriveLibraryAddress E key' type' discriminator' ↔
      key = key' ∧ type = type' ∧ discriminator = discriminator' := by
  constructor
  · intro h
    obtain ⟨hname, htype, hkeys⟩ := buildAcChain_injective hE hinj hU hU' h
    exact ⟨(List.cons.inj hkeys).1, htype, hname⟩
  · rintro ⟨rfl, rfl, rfl⟩
    rfl

open ChainSample in
theorem derive_library_address_music :
    deriveLibraryAddress environment ownerKey .recordstore "music" ≠
      deriveLibraryAddress environment ownerKey .recordstore "talk" := by
  intro h
  have hnames := (derive_library_address_injective environment_codecLaw sha3_injOn music_blocks talk_blocks).mp h
  exact absurd hnames.2.2 (by decide)

end RecordNode
