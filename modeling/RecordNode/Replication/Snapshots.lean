import RecordNode.Replication.Messages

/-! # Snapshots of published heads

A sender that publishes one batch of heads after another, and what the receiver
makes of the stream. The receiver drops the parts it holds when they outgrow the
cap, and remembers nothing of it: the parts behind them are put together as if
they were the batch. -/

namespace RecordNode

open Foundation

/-- The parts of a list of heads, as `encode_heads_batches` splits it. -/
def headsParts (heads : List Hash) (maxBytes : ℕ) : List (List Hash) :=
  splitHeads (byteLength (encodeHeadsMessage [] true)) maxBytes heads [] (byteLength (encodeHeadsMessage [] true))

theorem headsParts_ne_nil (heads : List Hash) (maxBytes : ℕ) : headsParts heads maxBytes ≠ [] :=
  splitHeads_ne_nil _ _ _ _ _

theorem flatten_headsParts (heads : List Hash) (maxBytes : ℕ) : (headsParts heads maxBytes).flatten = heads := by
  rw [headsParts, flatten_splitHeads, List.nil_append]

theorem within_of_length_le {maxBytes : ℕ} {parts : List (List Hash)}
    (h : ∀ data ∈ partMessages parts, data.length ≤ maxBytes) : Within maxBytes parts := by
  induction parts with
  | nil => trivial
  | cons part rest ih =>
    rw [partMessages, List.forall_mem_cons] at h
    exact ⟨h.1, ih h.2⟩

theorem length_quote_le (text : String) : (Json.quote text).length ≤ 6 * text.length + 2 := by
  have hescape (c : Char) : (Json.escapeChar c).length ≤ 6 := by
    unfold Json.escapeChar
    split_ifs <;> simp
  have hchars (chars : List Char) : (chars.flatMap Json.escapeChar).length ≤ 6 * chars.length := by
    induction chars with
    | nil => exact Nat.zero_le _
    | cons c chars ih =>
      have hc := hescape c
      rw [List.flatMap_cons, List.length_append, List.length_cons]
      omega
  have htext := hchars text.toList
  rw [String.length_toList] at htext
  simp only [Json.quote, List.length_cons, List.length_append, List.length_nil]
  omega

/-- Each head takes a byte of its message at least. -/
theorem Within.heads_length_le {maxBytes : ℕ} {parts : List (List Hash)} (h : Within maxBytes parts) :
    ∀ part ∈ parts, part.length ≤ maxBytes := by
  induction parts with
  | nil => simp
  | cons part rest ih =>
    refine List.forall_mem_cons.mpr ⟨?_, ih h.2⟩
    have hbytes := byteLength_encodeHeadsMessage part !rest.isEmpty
    have hchars := length_le_byteLength (Json.joined ',' (part.map Json.quote))
    have hheads := Json.length_joined_quote part
    have hpart := h.1
    omega

/-- One published list of heads: CID strings, in messages the network carries. -/
structure HeadsBatch (E : Environment) where
  heads : List Hash
  maxBytes : ℕ
  cids : ∀ head ∈ heads, E.parsesCid head = true
  carried : ∀ data ∈ encodeHeadsBatches heads maxBytes, data.length ≤ networkMessageMaxBytes

namespace HeadsBatch

variable {E : Environment}

/-- The messages the batch is published as. -/
def messages (batch : HeadsBatch E) : List Bytes := encodeHeadsBatches batch.heads batch.maxBytes

/-- The parts of the batch in front of its last, the ones a receiver has to hold. -/
def heldParts (batch : HeadsBatch E) : List (List Hash) := (headsParts batch.heads batch.maxBytes).dropLast

/-- The parts a receiver has to hold stay within its cap. -/
def withinCap (batch : HeadsBatch E) : Bool := batch.heldParts.flatten.length ≤ maxPendingHeads

theorem messages_eq (batch : HeadsBatch E) : batch.messages = partMessages (headsParts batch.heads batch.maxBytes) :=
  encodeHeadsBatches_eq _ _

theorem within (batch : HeadsBatch E) : Within networkMessageMaxBytes (headsParts batch.heads batch.maxBytes) :=
  within_of_length_le (batch.messages_eq ▸ batch.carried)

theorem map_decode_messages (batch : HeadsBatch E) : batch.messages.map (decodeHeadsMessage E) =
    marked (fun part incomplete => some ⟨part, incomplete⟩) (headsParts batch.heads batch.maxBytes) := by
  rw [batch.messages_eq]
  refine map_decode_partMessages E (fun part hp head hh => batch.cids head ?_) batch.within
  rw [← flatten_headsParts batch.heads batch.maxBytes]
  exact List.mem_flatten.mpr ⟨part, hp, hh⟩

/-- What a receiver with nothing pending makes of the batch. -/
def received (batch : HeadsBatch E) : List Hash := HeadsReceiver.assembled [] (headsParts batch.heads batch.maxBytes)

theorem received_eq {batch : HeadsBatch E} (h : batch.withinCap = true) : batch.received = batch.heads := by
  have hcap : ([] ++ batch.heldParts.flatten).length ≤ maxPendingHeads := of_decide_eq_true h
  rw [received, HeadsReceiver.assembled_eq hcap, List.nil_append, flatten_headsParts]

/-- Past the cap the receiver is left with less than the batch. -/
theorem received_length_lt {batch : HeadsBatch E} (h : batch.withinCap = false) :
    batch.received.length < batch.heads.length := by
  have hover : maxPendingHeads < ([] ++ batch.heldParts.flatten).length := Nat.lt_of_not_le (of_decide_eq_false h)
  have hlt := HeadsReceiver.assembled_length_lt (Nat.zero_le _) hover
  rwa [List.nil_append, flatten_headsParts] at hlt

end HeadsBatch

namespace HeadsReceiver

variable {E : Environment} {sender : String}

theorem replay_batches (batches : List (HeadsBatch E)) :
    replay [] ((batches.flatMap HeadsBatch.messages).filterMap (decodeHeadsMessage E)) =
      batches.map HeadsBatch.received := by
  induction batches with
  | nil => rfl
  | cons batch batches ih =>
    rw [List.flatMap_cons, List.filterMap_append,
      replay_parts E (headsParts_ne_nil _ _) batch.map_decode_messages, ih]
    rfl

/-- A batch published is a snapshot handed on, whole or not. -/
theorem handedOn_batches {batches : List (HeadsBatch E)} {messages : List (String × Bytes)}
    (hsent : sentBy sender messages = batches.flatMap HeadsBatch.messages) :
    handedOn sender (create.snapshots E messages) = batches.map HeadsBatch.received := by
  rw [handedOn_snapshots, hsent]
  exact replay_batches batches

/-- The snapshots handed on are published batches, in order, none of them over the cap. -/
def WholeSnapshots (batches : List (HeadsBatch E)) (snapshots : List (List Hash)) : Prop :=
  snapshots.Sublist ((batches.filter HeadsBatch.withinCap).map HeadsBatch.heads)

/-- For a sender that publishes these batches in order and without loss, with any messages of others
between them, the snapshots handed on are whole batches exactly when no batch makes the receiver hold
more than its cap. -/
theorem whole_snapshots {batches : List (HeadsBatch E)} {messages : List (String × Bytes)}
    (hsent : sentBy sender messages = batches.flatMap HeadsBatch.messages) :
    WholeSnapshots batches (handedOn sender (create.snapshots E messages)) ↔
      ∀ batch ∈ batches, batch.heldParts.flatten.length ≤ maxPendingHeads := by
  rw [WholeSnapshots, handedOn_batches hsent]
  constructor
  · intro hsub batch hb
    have hle : batches.length ≤ (batches.filter HeadsBatch.withinCap).length := by
      simpa using hsub.length_le
    have hall := (List.filter_sublist (p := HeadsBatch.withinCap)).eq_of_length_le hle
    exact of_decide_eq_true (List.filter_eq_self.mp hall batch hb)
  · intro hcap
    have hwithin : ∀ batch ∈ batches, batch.withinCap = true := fun batch hb => decide_eq_true (hcap batch hb)
    rw [List.filter_eq_self.mpr hwithin, List.map_congr_left fun batch hb => HeadsBatch.received_eq (hwithin batch hb)]

end HeadsReceiver

namespace TwoHeads

/-- Both heads in a message each, then the second alone. -/
def both : HeadsBatch environment where
  heads := [first, second]
  maxBytes := 100
  cids := by decide
  carried := by decide

def later : HeadsBatch environment where
  heads := [second]
  maxBytes := networkMessageMaxBytes
  cids := by decide
  carried := by decide

end TwoHeads

open TwoHeads in
/-- Two batches of one sender, the first in two parts, with another sender's bytes between them. -/
theorem whole_snapshots_two : ∃ part rest next : Bytes,
    HeadsReceiver.handedOn "x" (HeadsReceiver.create.snapshots environment
      [("x", part), ("y", part), ("x", rest), ("x", next)]) = [[first, second], [second]] ∧
    HeadsReceiver.WholeSnapshots [both, later] [[first, second], [second]] := by
  obtain ⟨part, rest, hboth⟩ : ∃ part rest, both.messages = [part, rest] := ⟨_, _, rfl⟩
  obtain ⟨next, hlater⟩ : ∃ next, later.messages = [next] := ⟨_, rfl⟩
  have hsent : HeadsReceiver.sentBy "x" [("x", part), ("y", part), ("x", rest), ("x", next)] =
      [both, later].flatMap HeadsBatch.messages := by
    rw [List.flatMap_cons, List.flatMap_singleton, hboth, hlater]
    rfl
  have hsnapshots := HeadsReceiver.handedOn_batches hsent
  have hwhole := (HeadsReceiver.whole_snapshots hsent).mpr (by decide)
  have hreceived : [both, later].map HeadsBatch.received = [[first, second], [second]] := by decide
  rw [hsnapshots, hreceived] at hwhole
  exact ⟨part, rest, next, hsnapshots.trans hreceived, hwhole⟩

namespace ManyHeads

/-- A CID parser that knows the hashes of blocks. -/
def environment : Environment := { plainEnvironment with parsesCid := isProtocolCid }

/-- The hash with this number in the last bytes of its digest. -/
def head (n : ℕ) : Hash :=
  formatProtocolCid ⟨List.replicate 61 0 ++ [UInt8.ofNat (n / 65536), UInt8.ofNat (n / 256), UInt8.ofNat n], by simp⟩

def heads (count : ℕ) : List Hash := (List.range count).map head

theorem heads_nodup {count : ℕ} (hcount : count ≤ 2 ^ 24) : (heads count).Nodup := by
  refine List.nodup_range.map_on ?_
  intro m hm n hn h
  have hbytes := congrArg Digest.bytes (formatProtocolCid_injective h)
  simp only [List.append_cancel_left_eq, List.cons.injEq] at hbytes
  obtain ⟨h2, h1, h0, -⟩ := hbytes
  have hm := List.mem_range.mp hm
  have hn := List.mem_range.mp hn
  replace h2 := congrArg UInt8.toNat h2
  replace h1 := congrArg UInt8.toNat h1
  replace h0 := congrArg UInt8.toNat h0
  simp only [UInt8.toNat_ofNat'] at h0 h1 h2
  omega

theorem byteLength_quote_head_le (n : ℕ) : byteLength (Json.quote (head n)) ≤ 24 * 273 + 8 := by
  have hlength := formatProtocolCid_length_le
    ⟨List.replicate 61 0 ++ [UInt8.ofNat (n / 65536), UInt8.ofNat (n / 256), UInt8.ofNat n], by simp⟩
  have hquote := length_quote_le (head n)
  have hbytes := byteLength_le (Json.quote (head n))
  rw [head] at *
  omega

theorem heads_fitAlone (count : ℕ) : FitAlone networkMessageMaxBytes (heads count) := by
  have hfit (l : List ℕ) : FitAlone networkMessageMaxBytes (l.map head) := by
    induction l with
    | nil => trivial
    | cons n l ih =>
      refine ⟨?_, ih⟩
      have hhead := byteLength_quote_head_le n
      have hone (incomplete : Bool) :
          byteLength (encodeHeadsMessage [head n] incomplete) ≤ networkMessageMaxBytes := by
        have hmessage := byteLength_encodeHeadsMessage_append [] (head n) incomplete
        have hopen : byteLength (encodeHeadsMessage [] incomplete) ≤ 100 := by
          cases incomplete <;> decide
        rw [List.nil_append, addedBytes, List.isEmpty_nil, if_pos rfl] at hmessage
        rw [hmessage, networkMessageMaxBytes]
        omega
      exact hone _
  exact hfit _

theorem heads_within (count : ℕ) : Within networkMessageMaxBytes (headsParts (heads count) networkMessageMaxBytes) := by
  refine within_splitHeads rfl (heads_fitAlone count) fun _ => ?_
  generalize (!(heads count).isEmpty) = incomplete
  cases incomplete <;> decide

theorem environment_parsesCid : environment.parsesCid = isProtocolCid := rfl

theorem heads_cids (count : ℕ) : ∀ text ∈ heads count, environment.parsesCid text = true := by
  intro text h
  obtain ⟨n, -, hn⟩ := List.mem_map.mp h
  rw [← hn, head, environment_parsesCid]
  exact isProtocolCid_formatProtocolCid _

/-- All of them at once, the way the publisher sends its heads. -/
def batch (count : ℕ) : HeadsBatch environment where
  heads := heads count
  maxBytes := networkMessageMaxBytes
  cids := heads_cids count
  carried := by
    rw [encodeHeadsBatches_eq]
    exact (heads_within count).length_le

/-- The last part carries no more than a message holds, so the others are over the cap. -/
theorem batch_over {count : ℕ} (hcount : networkMessageMaxBytes + maxPendingHeads < count) :
    (batch count).withinCap = false := by
  have hne := headsParts_ne_nil (heads count) networkMessageMaxBytes
  have hflat := flatten_headsParts (heads count) networkMessageMaxBytes
  have hlast := (heads_within count).heads_length_le _ (List.getLast_mem hne)
  rw [← List.dropLast_concat_getLast hne, List.flatten_concat] at hflat
  have hlength := congrArg List.length hflat
  have hheads : (heads count).length = count := by rw [heads, List.length_map, List.length_range]
  rw [List.length_append, hheads] at hlength
  refine decide_eq_false (Nat.not_le.mpr ?_)
  change maxPendingHeads < (headsParts (heads count) networkMessageMaxBytes).dropLast.flatten.length
  omega

theorem snapshot_cut_short {count : ℕ} (hcount : networkMessageMaxBytes + maxPendingHeads < count) :
    ∃ snapshot ∈ HeadsReceiver.handedOn "x" (HeadsReceiver.create.snapshots environment
        ((batch count).messages.map fun data => ("x", data))),
      snapshot ≠ heads count ∧
        ¬ HeadsReceiver.WholeSnapshots [batch count] (HeadsReceiver.handedOn "x"
          (HeadsReceiver.create.snapshots environment ((batch count).messages.map fun data => ("x", data)))) := by
  have hsent : HeadsReceiver.sentBy "x" ((batch count).messages.map fun data => ("x", data)) =
      [batch count].flatMap HeadsBatch.messages := by
    simp [HeadsReceiver.sentBy, List.filter_map, Function.comp_def]
  rw [HeadsReceiver.handedOn_batches hsent]
  refine ⟨(batch count).received, List.mem_cons_self, ?_, ?_⟩
  · intro heq
    exact Nat.ne_of_lt (HeadsBatch.received_length_lt (batch_over hcount)) (congrArg List.length heq)
  · rw [HeadsReceiver.WholeSnapshots, List.filter_cons_of_neg (by simp [batch_over hcount])]
    simp

end ManyHeads

open ManyHeads in
/-- Over half a million distinct heads in one batch: the receiver hands on a list that is none of the
published ones. -/
theorem whole_snapshots_oversized : (heads (2 ^ 19)).Nodup ∧
    ∃ snapshot ∈ HeadsReceiver.handedOn "x" (HeadsReceiver.create.snapshots environment
        ((batch (2 ^ 19)).messages.map fun data => ("x", data))),
      snapshot ≠ heads (2 ^ 19) ∧
        ¬ HeadsReceiver.WholeSnapshots [batch (2 ^ 19)] (HeadsReceiver.handedOn "x"
          (HeadsReceiver.create.snapshots environment ((batch (2 ^ 19)).messages.map fun data => ("x", data)))) :=
  ⟨heads_nodup (by decide), snapshot_cut_short (by decide)⟩

end RecordNode
