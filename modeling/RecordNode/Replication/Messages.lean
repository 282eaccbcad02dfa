import RecordNode.Foundation.Json
import RecordNode.Foundation.OrderedMap
import RecordNode.Encoding.PlainEnvironment

/-! # Heads messages

The heads a peer publishes, split into messages within a size bound, and the
receiver that puts each sender's parts together again. The splitter counts the
bytes as it goes, so the count is the size of the message it will write. -/

namespace RecordNode

open Foundation

def networkMessageMaxBytes : ℕ := 256 * 1024

def byteLength (json : List Char) : ℕ := (encodeText (String.ofList json)).length

/-- Oversized or unparseable bytes are dropped without processing. -/
def parseBounded (data : Bytes) : Option Json :=
  if data.length > networkMessageMaxBytes then none else Json.parse (decodeText data)

def encodeHeadsMessage (heads : List Hash) (incomplete : Bool) : List Char :=
  Json.objectText (("type", Json.quote "heads") :: ("heads", Json.arrayText (heads.map Json.quote)) ::
    if incomplete then [("incomplete", "true".toList)] else [])

/-- What a head adds to the message of a batch: its text, and a comma behind another. -/
def addedBytes (batch : List Hash) (head : Hash) : ℕ :=
  byteLength (Json.quote head) + if batch.isEmpty then 0 else 1

/-- The loop of `encode_heads_batches`, with the batch it fills and the size of its message. -/
def splitHeads (overhead maxBytes : ℕ) : List Hash → List Hash → ℕ → List (List Hash)
  | [], batch, _ => [batch]
  | head :: heads, batch, size =>
    let added := addedBytes batch head
    if !batch.isEmpty && size + added > maxBytes then
      batch :: splitHeads overhead maxBytes heads [head] (overhead + added - 1)
    else splitHeads overhead maxBytes heads (batch ++ [head]) (size + added)

/-- One trigger's heads as messages within the bound: every message but the last is marked
incomplete. -/
def encodeHeadsBatches (heads : List Hash) (maxBytes : ℕ) : List Bytes :=
  let overhead := byteLength (encodeHeadsMessage [] true)
  let batches := splitHeads overhead maxBytes heads [] overhead
  batches.mapIdx fun index batch =>
    encodeText (String.ofList (encodeHeadsMessage batch (index < batches.length - 1)))

structure HeadsMessage where
  heads : List Hash
  incomplete : Bool
deriving DecidableEq

section Receiving
variable (E : Environment)

def HeadsMessage.isCidString (value : Json) : Bool := value.asString?.any E.parsesCid

/-- A heads message whose every element is a CID string. -/
def decodeHeadsMessage (data : Bytes) : Option HeadsMessage := do
  let value ← parseBounded data
  let type ← (value.get "type").bind Json.asString?
  let items ← (value.get "heads").bind Json.asArray?
  if type = "heads" ∧ items.all (HeadsMessage.isCidString E) then
    return ⟨items.filterMap Json.asString?, (value.get "incomplete") matches some (.bool true)⟩
  else none

/-- A cap on one sender's pending parts. -/
def maxPendingHeads : ℕ := 1 <<< 16

/-- The pending parts of each sender. -/
structure HeadsReceiver where
  pending : OrderedMap String (List Hash)

namespace HeadsReceiver

def create : HeadsReceiver := ⟨.empty⟩

/-- One message of a sender, and the snapshot it completes. -/
def receive (r : HeadsReceiver) (sender : String) (data : Bytes) : HeadsReceiver × Option (String × List Hash) :=
  match decodeHeadsMessage E data with
  | none => (r, none)
  | some message =>
    let heads := (r.pending.get sender).getD [] ++ message.heads
    if message.incomplete then
      if heads.length > maxPendingHeads then (⟨r.pending.delete sender⟩, none)
      else (⟨r.pending.set sender heads⟩, none)
    else (⟨r.pending.delete sender⟩, some (sender, heads))

/-- The snapshots handed on for a sequence of messages. -/
def snapshots (r : HeadsReceiver) : List (String × Bytes) → List (String × List Hash)
  | [] => []
  | (sender, data) :: rest => (r.receive E sender data).2.toList ++ snapshots (r.receive E sender data).1 rest

end HeadsReceiver

end Receiving

/-! ## Sizes -/

theorem byteLength_append (a b : List Char) : byteLength (a ++ b) = byteLength a + byteLength b := by
  simp [byteLength, encodeText_append, String.ofList_append]

theorem byteLength_comma (text : List Char) : byteLength (',' :: text) = 1 + byteLength text :=
  byteLength_append [','] text

theorem byteLength_singleton (c : Char) : byteLength [c] = c.utf8Size := by
  have hsize : byteLength [c] = (String.singleton c).utf8ByteSize := by
    simp [byteLength, encodeText, String.utf8ByteSize]
  rw [hsize, String.utf8ByteSize_singleton]

theorem length_le_byteLength (text : List Char) : text.length ≤ byteLength text := by
  induction text with
  | nil => exact Nat.zero_le _
  | cons c text ih =>
    have hsplit := byteLength_append [c] text
    have hc := c.utf8Size_pos
    rw [byteLength_singleton, List.singleton_append] at hsplit
    rw [List.length_cons]
    omega

theorem byteLength_le (text : List Char) : byteLength text ≤ 4 * text.length := by
  induction text with
  | nil => exact Nat.zero_le _
  | cons c text ih =>
    have hsplit := byteLength_append [c] text
    have hc := c.utf8Size_le_four
    rw [byteLength_singleton, List.singleton_append] at hsplit
    rw [List.length_cons]
    omega

theorem byteLength_joined_append {texts : List (List Char)} (hne : texts ≠ []) (text : List Char) :
    byteLength (Json.joined ',' (texts ++ [text])) = byteLength (Json.joined ',' texts) + 1 + byteLength text := by
  induction texts with
  | nil => exact absurd rfl hne
  | cons first rest ih =>
    cases rest with
    | nil =>
      simp only [List.cons_append, List.nil_append, Json.joined_cons_cons, Json.joined]
      rw [byteLength_append, byteLength_comma]
      omega
    | cons next rest =>
      have ih := ih (by simp)
      simp only [List.cons_append, Json.joined_cons_cons] at ih ⊢
      rw [byteLength_append, byteLength_comma, ih, byteLength_append, byteLength_comma]
      omega

/-- What a message has behind the list of its heads. -/
def headsClosing (incomplete : Bool) : List Char :=
  if incomplete then "],\"incomplete\":true\x7d".toList else "]\x7d".toList

theorem encodeHeadsMessage_eq (heads : List Hash) (incomplete : Bool) :
    encodeHeadsMessage heads incomplete =
      "\x7b\"type\":\"heads\",\"heads\":[".toList ++
        (Json.joined ',' (heads.map Json.quote) ++ headsClosing incomplete) := by
  cases incomplete
  · simp [encodeHeadsMessage, headsClosing, Json.objectText, Json.arrayText, Json.joined, Json.fieldText, Json.quote,
      Json.escapeChar]
  · simp [encodeHeadsMessage, headsClosing, Json.objectText, Json.arrayText, Json.joined, Json.fieldText, Json.quote,
      Json.escapeChar]

/-- The bytes of a message before and behind the heads it lists. -/
theorem byteLength_encodeHeadsMessage (heads : List Hash) (incomplete : Bool) :
    byteLength (encodeHeadsMessage heads incomplete) =
      byteLength (encodeHeadsMessage [] incomplete) + byteLength (Json.joined ',' (heads.map Json.quote)) := by
  have hnil : byteLength (Json.joined ',' ([].map Json.quote)) = 0 := by decide
  simp only [encodeHeadsMessage_eq, byteLength_append, hnil]
  omega

theorem byteLength_encodeHeadsMessage_append (heads : List Hash) (head : Hash) (incomplete : Bool) :
    byteLength (encodeHeadsMessage (heads ++ [head]) incomplete) = byteLength (encodeHeadsMessage heads incomplete) +
      addedBytes heads head := by
  rw [addedBytes, byteLength_encodeHeadsMessage, byteLength_encodeHeadsMessage heads, List.map_append, List.map_cons, List.map_nil]
  cases heads with
  | nil => simp [Json.joined, show byteLength [] = 0 by decide]
  | cons first rest =>
    rw [byteLength_joined_append (by simp)]
    simp only [List.isEmpty_cons, Bool.false_eq_true, if_false]
    omega

theorem byteLength_complete_le (heads : List Hash) :
    byteLength (encodeHeadsMessage heads false) ≤ byteLength (encodeHeadsMessage heads true) := by
  rw [byteLength_encodeHeadsMessage heads false, byteLength_encodeHeadsMessage heads true]
  have : byteLength (encodeHeadsMessage [] false) ≤ byteLength (encodeHeadsMessage [] true) := by decide
  omega

/-! ## Splitting -/

/-- The messages of these parts, all but the last incomplete. -/
def partMessages : List (List Hash) → List Bytes
  | [] => []
  | part :: rest => encodeText (String.ofList (encodeHeadsMessage part !rest.isEmpty)) :: partMessages rest

/-- The parts one after another, all but the last marked incomplete. -/
def marked {β : Type*} (f : List Hash → Bool → β) : List (List Hash) → List β
  | [] => []
  | part :: rest => f part (!rest.isEmpty) :: marked f rest

theorem mapIdx_marked {β : Type*} (f : List Hash → Bool → β) (parts : List (List Hash)) :
    (parts.mapIdx fun index part => f part (index < parts.length - 1)) = marked f parts := by
  induction parts with
  | nil => rfl
  | cons part rest ih =>
    have hlast : decide (0 < (part :: rest).length - 1) = !rest.isEmpty := by cases rest <;> simp
    have hnext (index : ℕ) : decide (index + 1 < (part :: rest).length - 1) = decide (index < rest.length - 1) := by
      simp only [List.length_cons, decide_eq_decide]
      omega
    simp only [List.mapIdx_cons, marked, hlast, hnext, ih]

theorem filterMap_marked {sent : List Bytes} {decode : Bytes → Option HeadsMessage} {parts : List (List Hash)}
    (h : sent.map decode = marked (fun part incomplete => some ⟨part, incomplete⟩) parts) :
    sent.filterMap decode = marked HeadsMessage.mk parts := by
  induction parts generalizing sent with
  | nil => rw [List.map_eq_nil_iff.mp h, List.filterMap_nil, marked]
  | cons part rest ih =>
    obtain ⟨data, later, rfl, hdata, hlater⟩ := List.map_eq_cons_iff.mp h
    rw [List.filterMap_cons_some hdata, ih hlater, marked]

theorem partMessages_eq_marked (parts : List (List Hash)) :
    partMessages parts = marked (fun part incomplete => encodeText (String.ofList (encodeHeadsMessage part incomplete)))
      parts := by
  induction parts with
  | nil => rfl
  | cons part rest ih => rw [partMessages, marked, ih]

/-- Every message of these parts is within the bound. -/
def Within (maxBytes : ℕ) : List (List Hash) → Prop
  | [] => True
  | part :: rest => byteLength (encodeHeadsMessage part !rest.isEmpty) ≤ maxBytes ∧ Within maxBytes rest

/-- Each head fits alone: a message for each would be within the bound. -/
def FitAlone (maxBytes : ℕ) (heads : List Hash) : Prop := Within maxBytes (heads.map fun head => [head])

theorem Within.length_le {maxBytes : ℕ} {parts : List (List Hash)} (h : Within maxBytes parts) :
    ∀ data ∈ partMessages parts, data.length ≤ maxBytes := by
  induction parts with
  | nil => simp [partMessages]
  | cons part rest ih =>
    intro data hd
    rcases List.mem_cons.mp hd with rfl | hd
    · exact h.1
    · exact ih h.2 data hd

theorem splitHeads_ne_nil (overhead maxBytes : ℕ) (heads batch : List Hash) (size : ℕ) :
    splitHeads overhead maxBytes heads batch size ≠ [] := by
  induction heads generalizing batch size with
  | nil => simp [splitHeads]
  | cons head heads ih =>
    simp only [splitHeads]
    split
    · simp
    · exact ih _ _

/-- The parts are the heads in order, whatever the sizes. -/
theorem flatten_splitHeads (overhead maxBytes : ℕ) (heads batch : List Hash) (size : ℕ) :
    (splitHeads overhead maxBytes heads batch size).flatten = batch ++ heads := by
  induction heads generalizing batch size with
  | nil => simp [splitHeads]
  | cons head heads ih =>
    simp only [splitHeads]
    split
    · rw [List.flatten_cons, ih, List.singleton_append]
    · rw [ih, List.append_assoc, List.singleton_append]

/-- The size the loop carries is that of the batch as an incomplete message, so a batch is closed
before it outgrows the bound. -/
theorem within_splitHeads {maxBytes : ℕ} {heads batch : List Hash} {size : ℕ}
    (hsize : size = byteLength (encodeHeadsMessage batch true)) (hfit : FitAlone maxBytes heads)
    (hbatch : heads = [] ∨ batch ≠ [] → byteLength (encodeHeadsMessage batch !heads.isEmpty) ≤ maxBytes) :
    Within maxBytes (splitHeads (byteLength (encodeHeadsMessage [] true)) maxBytes heads batch size) := by
  induction heads generalizing batch size with
  | nil => exact ⟨hbatch (Or.inl rfl), trivial⟩
  | cons head heads ih =>
    have hadded := byteLength_encodeHeadsMessage_append batch head true
    have hhead := byteLength_encodeHeadsMessage_append [] head true
    obtain ⟨hone, hrest⟩ := hfit
    simp only [splitHeads]
    rw [List.isEmpty_map] at hone
    split
    case isTrue hfull =>
      rw [Bool.and_eq_true, Bool.not_eq_true', decide_eq_true_eq] at hfull
      have hne : batch ≠ [] := by simpa using hfull.1
      refine ⟨?_, ih ?_ hrest fun _ => ?_⟩
      · rw [List.isEmpty_eq_false_iff.mpr (splitHeads_ne_nil _ _ _ _ _)]
        exact hbatch (Or.inr hne)
      · have hcost : addedBytes batch head = addedBytes [] head + 1 := by simp [addedBytes, hne]
        rw [List.nil_append] at hhead
        omega
      · simpa using hone
    case isFalse hfull =>
      refine ih (by rw [hadded, hsize]) hrest fun _ => ?_
      cases batch with
      | nil => simpa using hone
      | cons first rest =>
        have hle : byteLength (encodeHeadsMessage (first :: rest ++ [head]) true) ≤ maxBytes := by
          have hroom : ¬ size + addedBytes (first :: rest) head > maxBytes := by simpa using hfull
          omega
        cases heads with
        | nil => exact (byteLength_complete_le _).trans hle
        | cons => exact hle

/-! ## Reading a message back -/

/-- The parsed object of a heads message. -/
def headsObject (heads : List Hash) (incomplete : Bool) : Json :=
  .object (("type", .string "heads") :: ("heads", .array (heads.map Json.string)) ::
    if incomplete then [("incomplete", .bool true)] else [])

theorem parse_encodeHeadsMessage (heads : List Hash) (incomplete : Bool) :
    Json.parse (encodeHeadsMessage heads incomplete) = some (headsObject heads incomplete) := by
  have hitems : List.Forall₂ (Json.Reads 1) (heads.map Json.quote) (heads.map Json.string) := by
    rw [List.forall₂_map_left_iff, List.forall₂_map_right_iff]
    exact List.forall₂_same.mpr fun head _ => Json.reads_quote head
  have harray := Json.reads_arrayText hitems
  rw [List.length_map] at harray
  have hfields : List.Forall₂ (Json.ReadsField (1 + heads.length + 1))
      (("type", Json.quote "heads") :: ("heads", Json.arrayText (heads.map Json.quote)) ::
        if incomplete then [("incomplete", "true".toList)] else [])
      (("type", .string "heads") :: ("heads", .array (heads.map Json.string)) ::
        if incomplete then [("incomplete", .bool true)] else []) := by
    refine .cons ⟨rfl, (Json.reads_quote _).mono (by omega)⟩ (.cons ⟨rfl, harray⟩ ?_)
    cases incomplete
    · exact .nil
    · exact .cons ⟨rfl, Json.reads_true.mono (by omega)⟩ .nil
  refine Json.parse_of_reads (Json.reads_objectText hfields) ?_
  have hlength := Json.length_joined_quote heads
  have hopening : "\x7b\"type\":\"heads\",\"heads\":[".toList.length = 25 := by decide
  change _ ≤ 2 * (encodeHeadsMessage heads incomplete).length + 1
  rw [encodeHeadsMessage_eq]
  cases incomplete <;>
    simp only [List.length_append, List.length_cons, List.length_nil, if_true, if_false, Bool.false_eq_true] <;>
    omega

theorem decode_encodeHeadsMessage (E : Environment) {heads : List Hash} (hcid : ∀ head ∈ heads, E.parsesCid head = true)
    (incomplete : Bool) (hl : byteLength (encodeHeadsMessage heads incomplete) ≤ networkMessageMaxBytes) :
    decodeHeadsMessage E (encodeText (String.ofList (encodeHeadsMessage heads incomplete))) =
      some ⟨heads, incomplete⟩ := by
  have hparse : parseBounded (encodeText (String.ofList (encodeHeadsMessage heads incomplete))) =
      some (headsObject heads incomplete) := by
    have htext : decodeText (encodeText (String.ofList (encodeHeadsMessage heads incomplete))) =
        encodeHeadsMessage heads incomplete := decodeText_encodeText (by decide)
    have hbound : ¬ (encodeText (String.ofList (encodeHeadsMessage heads incomplete))).length > networkMessageMaxBytes :=
      Nat.not_lt.mpr hl
    rw [parseBounded, if_neg hbound, htext, parse_encodeHeadsMessage]
  have hall : ∀ head ∈ heads, HeadsMessage.isCidString E (.string head) = true := by
    simpa [HeadsMessage.isCidString, Json.asString?] using hcid
  have hstrings : (heads.map Json.string).filterMap Json.asString? = heads := by
    simp [List.filterMap_map, Function.comp_def, Json.asString?]
  cases incomplete
  all_goals simp [decodeHeadsMessage, hparse, headsObject, Json.get, List.lookup_cons, Json.asString?, Json.asArray?, hstrings]
  · exact hall
  · exact hall

/-! ## The receiver -/

namespace HeadsReceiver

variable {E : Environment} {r : HeadsReceiver} {sender : String}

/-- A message touches only its own sender's parts, and hands on only its sender's snapshot. -/
theorem receive_other {other : String} (ho : other ≠ sender) (data : Bytes) :
    (r.receive E other data).1.pending.get sender = r.pending.get sender ∧
      (r.receive E other data).2.toList.filter (·.1 = sender) = [] := by
  unfold receive
  split
  · exact ⟨rfl, rfl⟩
  · dsimp only
    split
    · split
      · simp [Ne.symm ho]
      · simp [Ne.symm ho]
    · simp [ho, Ne.symm ho]

/-- The messages of a sender among these. -/
def sentBy (sender : String) (messages : List (String × Bytes)) : List Bytes :=
  (messages.filter (·.1 = sender)).map Prod.snd

/-- The snapshots of a sender among these. -/
def handedOn (sender : String) (snapshots : List (String × List Hash)) : List (List Hash) :=
  (snapshots.filter (·.1 = sender)).map Prod.snd

/-- What the messages of one sender make of the parts held of it, and the snapshots they complete. -/
def replay (held : List Hash) : List HeadsMessage → List (List Hash)
  | [] => []
  | message :: rest =>
    if message.incomplete then
      replay (if (held ++ message.heads).length > maxPendingHeads then [] else held ++ message.heads) rest
    else (held ++ message.heads) :: replay [] rest

/-- A sender's snapshots come from its own messages, whatever stands between them. -/
theorem handedOn_snapshots (messages : List (String × Bytes)) :
    handedOn sender (r.snapshots E messages) =
      replay ((r.pending.get sender).getD []) ((sentBy sender messages).filterMap (decodeHeadsMessage E)) := by
  induction messages generalizing r with
  | nil => rfl
  | cons message messages ih =>
    obtain ⟨from_, data⟩ := message
    have hsplit : handedOn sender (r.snapshots E ((from_, data) :: messages)) =
        handedOn sender (r.receive E from_ data).2.toList ++
          handedOn sender ((r.receive E from_ data).1.snapshots E messages) := by
      simp [snapshots, handedOn]
    rw [hsplit, ih]
    by_cases hfrom : from_ = sender
    · subst hfrom
      have hcons : sentBy from_ ((from_, data) :: messages) = data :: sentBy from_ messages := by simp [sentBy]
      rw [hcons]
      cases hdecode : decodeHeadsMessage E data with
      | none => simp [receive, hdecode, handedOn]
      | some message =>
        rw [List.filterMap_cons_some hdecode, replay]
        by_cases hpart : message.incomplete = true
        · by_cases hover : ((r.pending.get from_).getD [] ++ message.heads).length > maxPendingHeads
          · have hreceive : r.receive E from_ data = (⟨r.pending.delete from_⟩, none) := by
              simp only [receive, hdecode, if_pos hpart, if_pos hover]
            rw [hreceive, if_pos hpart, if_pos hover]
            simp [handedOn]
          · have hreceive : r.receive E from_ data =
                (⟨r.pending.set from_ ((r.pending.get from_).getD [] ++ message.heads)⟩, none) := by
              simp only [receive, hdecode, if_pos hpart, if_neg hover]
            rw [hreceive, if_pos hpart, if_neg hover]
            simp [handedOn]
        · simp [receive, hdecode, hpart, handedOn]
    · obtain ⟨hpending, hnone⟩ := receive_other (E := E) (r := r) hfrom data
      have hskip : sentBy sender ((from_, data) :: messages) = sentBy sender messages := by simp [sentBy, hfrom]
      rw [hskip, hpending, handedOn, hnone, List.map_nil, List.nil_append]

/-- What the receiver puts together from these parts behind what it holds. -/
def assembled (held : List Hash) : List (List Hash) → List Hash
  | [] => held
  | [part] => held ++ part
  | part :: next :: rest =>
    if (held ++ part).length > maxPendingHeads then assembled [] (next :: rest)
    else assembled (held ++ part) (next :: rest)

theorem assembled_suffix (held : List Hash) (parts : List (List Hash)) :
    assembled held parts <:+ held ++ parts.flatten := by
  fun_induction assembled held parts with
  | case1 held => simp
  | case2 held part => simp
  | case3 held part next rest hover ih =>
    rw [List.nil_append] at ih
    refine ih.trans ?_
    rw [List.flatten_cons (l := part), ← List.append_assoc]
    exact List.suffix_append _ _
  | case4 held part next rest hroom ih => rwa [List.append_assoc] at ih

/-- Parts that outgrow the cap before the last are cut short. -/
theorem assembled_length_lt {held : List Hash} {parts : List (List Hash)}
    (hheld : held.length ≤ maxPendingHeads) (hover : maxPendingHeads < (held ++ parts.dropLast.flatten).length) :
    (assembled held parts).length < (held ++ parts.flatten).length := by
  fun_induction assembled held parts with
  | case1 held =>
    simp only [List.dropLast_nil, List.flatten_nil, List.append_nil] at hover
    omega
  | case2 held part =>
    simp only [List.dropLast_singleton, List.flatten_nil, List.append_nil] at hover
    omega
  | case3 held part next rest hfull ih =>
    have hle := (assembled_suffix [] (next :: rest)).length_le
    simp only [List.nil_append, List.flatten_cons, List.length_append] at hle hfull ⊢
    omega
  | case4 held part next rest hroom ih =>
    rw [List.dropLast_cons_cons, List.flatten_cons, ← List.append_assoc] at hover
    have := ih (Nat.not_lt.mp hroom) hover
    rwa [List.append_assoc, ← List.flatten_cons] at this

theorem assembled_eq {held : List Hash} {parts : List (List Hash)}
    (hcap : (held ++ parts.dropLast.flatten).length ≤ maxPendingHeads) :
    assembled held parts = held ++ parts.flatten := by
  fun_induction assembled held parts with
  | case1 held => simp
  | case2 held part => simp
  | case3 held part next rest hfull ih =>
    rw [List.dropLast_cons_cons, List.flatten_cons, ← List.append_assoc, List.length_append] at hcap
    omega
  | case4 held part next rest hroom ih =>
    rw [List.dropLast_cons_cons, List.flatten_cons, ← List.append_assoc] at hcap
    rw [ih hcap, List.append_assoc, ← List.flatten_cons]

/-- The messages of a batch put its parts together, and leave nothing behind for the next. -/
theorem replay_parts (E : Environment) {parts : List (List Hash)} {sent : List Bytes} (hne : parts ≠ [])
    (hread : sent.map (decodeHeadsMessage E) = marked (fun part incomplete => some ⟨part, incomplete⟩) parts)
    (held : List Hash) (later : List HeadsMessage) :
    replay held (sent.filterMap (decodeHeadsMessage E) ++ later) = assembled held parts :: replay [] later := by
  rw [filterMap_marked hread]
  clear hread
  fun_induction assembled held parts with
  | case1 held => exact absurd rfl hne
  | case2 held part => rfl
  | case3 held part next rest hover ih =>
    rw [← ih (by simp), marked, List.cons_append, replay, if_pos (by simp), if_pos hover]
  | case4 held part next rest hroom ih =>
    rw [← ih (by simp), marked, List.cons_append, replay, if_pos (by simp), if_neg hroom]

end HeadsReceiver

/-! ## The round trip -/

theorem encodeHeadsBatches_eq (heads : List Hash) (maxBytes : ℕ) :
    encodeHeadsBatches heads maxBytes = partMessages (splitHeads (byteLength (encodeHeadsMessage [] true)) maxBytes
      heads [] (byteLength (encodeHeadsMessage [] true))) :=
  (mapIdx_marked _ _).trans (partMessages_eq_marked _).symm

theorem Within.mono {maxBytes more : ℕ} (hle : maxBytes ≤ more) {parts : List (List Hash)}
    (h : Within maxBytes parts) : Within more parts := by
  induction parts with
  | nil => trivial
  | cons part rest ih => exact ⟨h.1.trans hle, ih h.2⟩

/-- The decoded messages of parts within the network's bound. -/
theorem map_decode_partMessages (E : Environment) {parts : List (List Hash)}
    (hcid : ∀ part ∈ parts, ∀ head ∈ part, E.parsesCid head = true) (hbound : Within networkMessageMaxBytes parts) :
    (partMessages parts).map (decodeHeadsMessage E) = marked (fun part incomplete => some ⟨part, incomplete⟩) parts := by
  induction parts with
  | nil => rfl
  | cons part rest ih =>
    have hread := decode_encodeHeadsMessage E (hcid part List.mem_cons_self) _ hbound.1
    have hrest := ih (fun q hq => hcid q (List.mem_cons_of_mem part hq)) hbound.2
    simp only [partMessages, marked, List.map_cons, hread, hrest]

/-- The messages of a list of heads are within the bound, all but the last incomplete, and list the
heads in order. A receiver fed them in order, with any messages of others between them, hands on the
list and nothing else from their sender. -/
theorem heads_batches (E : Environment) {heads : List Hash} {maxBytes : ℕ}
    (hcid : ∀ head ∈ heads, E.parsesCid head = true) (hlen : heads.length ≤ maxPendingHeads)
    (hmax : maxBytes ≤ networkMessageMaxBytes) (hfit : FitAlone maxBytes heads)
    (hempty : heads = [] → byteLength (encodeHeadsMessage [] false) ≤ maxBytes) :
    (∀ data ∈ encodeHeadsBatches heads maxBytes, data.length ≤ maxBytes) ∧
      (∃ parts : List (List Hash), parts ≠ [] ∧ parts.flatten = heads ∧
        (encodeHeadsBatches heads maxBytes).map (decodeHeadsMessage E) =
          parts.mapIdx fun index part => some ⟨part, index < parts.length - 1⟩) ∧
      (heads = [] → encodeHeadsBatches heads maxBytes =
        [encodeText "\x7b\"type\":\"heads\",\"heads\":[]\x7d"]) ∧
      ∀ (sender : String) (messages : List (String × Bytes)),
        HeadsReceiver.sentBy sender messages = encodeHeadsBatches heads maxBytes →
          HeadsReceiver.handedOn sender (HeadsReceiver.create.snapshots E messages) = [heads] := by
  have hwithin : Within maxBytes (splitHeads (byteLength (encodeHeadsMessage [] true)) maxBytes heads []
      (byteLength (encodeHeadsMessage [] true))) := by
    refine within_splitHeads rfl hfit ?_
    rintro (rfl | hbatch)
    · exact hempty rfl
    · exact absurd rfl hbatch
  have hflat := flatten_splitHeads (byteLength (encodeHeadsMessage [] true)) maxBytes heads []
    (byteLength (encodeHeadsMessage [] true))
  have hne := splitHeads_ne_nil (byteLength (encodeHeadsMessage [] true)) maxBytes heads []
    (byteLength (encodeHeadsMessage [] true))
  rw [List.nil_append] at hflat
  rw [encodeHeadsBatches_eq]
  generalize hparts : splitHeads (byteLength (encodeHeadsMessage [] true)) maxBytes heads []
    (byteLength (encodeHeadsMessage [] true)) = parts at *
  have hheads : ∀ part ∈ parts, ∀ head ∈ part, E.parsesCid head = true := fun part hp head hh =>
    hcid head (hflat ▸ List.mem_flatten.mpr ⟨part, hp, hh⟩)
  have hbound := hwithin.mono hmax
  have hread := map_decode_partMessages E hheads hbound
  refine ⟨hwithin.length_le, ⟨parts, hne, hflat, hread.trans (mapIdx_marked _ _).symm⟩, ?_, ?_⟩
  · rintro rfl
    rw [← hparts]
    rfl
  · intro sender messages hsent
    have hcap : ([] ++ parts.dropLast.flatten).length ≤ maxPendingHeads := by
      rw [← List.dropLast_concat_getLast hne, List.flatten_concat] at hflat
      rw [← hflat, List.length_append] at hlen
      rw [List.nil_append]
      omega
    have hreceived := HeadsReceiver.replay_parts E hne hread [] []
    rw [List.append_nil] at hreceived
    rw [HeadsReceiver.handedOn_snapshots, hsent]
    exact hreceived.trans (by rw [HeadsReceiver.assembled_eq hcap, List.nil_append, hflat]; rfl)

namespace TwoHeads

def first : Hash := "zdpuAxgMzJaTqK1HQU6CKQ9p2vUaG4eR9zUk4HwYj9Q1pK7DC"

def second : Hash := "zdpuAqyy2yLfTpevS4pxfVadSmS14oRNAXMvnAYet9zKwSqZc"

/-- A CID parser that knows the two heads. -/
def environment : Environment := { plainEnvironment with parsesCid := fun text => text = first || text = second }

end TwoHeads

open TwoHeads in
/-- Two heads in two messages of at most a hundred bytes, with another sender's bytes between them. -/
theorem heads_batches_two : ∃ part rest : Bytes, encodeHeadsBatches [first, second] 100 = [part, rest] ∧
    part.length ≤ 100 ∧ HeadsReceiver.handedOn "x" (HeadsReceiver.create.snapshots environment
      [("x", part), ("y", []), ("x", rest)]) = [[first, second]] := by
  obtain ⟨hsize, -, -, hreceive⟩ := heads_batches environment
    (show ∀ head ∈ [first, second], environment.parsesCid head = true by decide) (by decide) (by decide)
    (show FitAlone 100 [first, second] from ⟨by decide, by decide, trivial⟩) (by simp)
  refine ⟨_, _, rfl, hsize _ List.mem_cons_self, hreceive "x" _ rfl⟩

open TwoHeads in
/-- The empty list is one empty message, however small the bound. -/
theorem heads_batches_empty : ∃ (heads : List Hash) (maxBytes : ℕ),
    (∀ head ∈ heads, environment.parsesCid head = true) ∧ heads.length ≤ maxPendingHeads ∧
      maxBytes ≤ networkMessageMaxBytes ∧ FitAlone maxBytes heads ∧
      ¬ ∀ data ∈ encodeHeadsBatches heads maxBytes, data.length ≤ maxBytes :=
  ⟨[], 0, by decide, by decide, by decide, trivial, by decide⟩

end RecordNode
