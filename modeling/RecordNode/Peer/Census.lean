import Mathlib.Data.List.Perm.Subperm
import Mathlib.Data.List.TakeWhile
import RecordNode.Foundation.Comparator
import RecordNode.Foundation.Renaming
import RecordNode.Foundation.Tally

/-! # The network census

A node counts the peers it sees, one row per UTC day. Peer ids and library addresses are held
only as digests under a key drawn anew each week; a row holds counts, and version names no
peer can choose freely. A row closes when the clock passes its day and is written behind the
rows before it.

A date is the number of its day since 1970 and an instant a number of milliseconds. The keyed
hash and the locale's order of names are parameters. -/

namespace RecordNode

open Foundation

/-! ## Dates -/

def dayMs : ℤ := 24 * 60 * 60000

def retentionDays : ℤ := 90

def utcDate (ms : ℤ) : ℤ := ms / dayMs

/-- The day of the week, Sunday being zero. -/
def utcDay (ms : ℤ) : ℤ := (utcDate ms + 4) % 7

/-- The Monday that starts the week of an instant. -/
def weekStart (ms : ℤ) : ℤ := utcDate (ms - (utcDay ms + 6) % 7 * dayMs)

/-! ## Agent strings -/

inductive AgentMode where
  | publicMode
  | masked
  | relayed
  deriving Repr, DecidableEq

structure Agent where
  version : String
  mode : Option AgentMode
  deriving Repr, DecidableEq

def agentName : List Char := "record-node/".toList

/-- `\d{1,3}\.\d{1,3}` at the front of a text, and what follows it. -/
def parseVersion (text : List Char) : Option (List Char × List Char) :=
  let major := text.takeWhile Char.isDigit
  match text.dropWhile Char.isDigit with
  | '.' :: rest =>
    let minor := rest.takeWhile Char.isDigit
    if 1 ≤ major.length ∧ major.length ≤ 3 ∧ 1 ≤ minor.length ∧ minor.length ≤ 3 then
      some (major ++ '.' :: minor, rest.dropWhile Char.isDigit)
    else none
  | _ => none

def parseMode (text : List Char) : Option AgentMode :=
  if text = " (public)".toList then some .publicMode
  else if text = " (masked)".toList then some .masked
  else if text = " (relayed)".toList then some .relayed
  else none

def matchAgent (text : List Char) : Option Agent :=
  if agentName.isPrefixOf text then
    match parseVersion (text.drop agentName.length) with
    | none => none
    | some (version, rest) => (parseMode rest).map fun mode => ⟨String.ofList (agentName ++ version), some mode⟩
  else none

def parseAgent (agent : Option String) : Agent := (matchAgent (agent.getD "").toList).getD ⟨"other", none⟩

/-! ## Rows -/

def versionBucketFloor : ℕ := 3

def versionBucketLimit : ℕ := 16

def median (values : List ℕ) : ℕ :=
  if values = [] then 0
  else
    let sorted := values.insertionSort (· ≤ ·)
    let middle := sorted.length / 2
    if sorted.length % 2 = 1 then sorted.getD middle 0
    else (sorted.getD (middle - 1) 0 + sorted.getD middle 0 + 1) / 2

structure CensusRow where
  date : ℤ
  complete : Bool
  distinctPeerCount : ℕ
  peakConnectionCount : ℕ
  medianConnectionCount : ℕ
  maskedPeerCount : ℕ
  announcedLibraryCount : ℕ
  nodeVersionCounts : OrderedMap String ℕ
  rendezvousAddressCount : Option ℕ
  weeklyDistinctPeerCount : Option ℕ

section Rows
variable (localeCompare : String → String → ℚ)

/-- The names that are kept: the most-held of those with enough holders. -/
def namedVersions (counts : OrderedMap String ℕ) : List String :=
  ((sortBy (fun left right => orElse (right.2 - left.2) (localeCompare left.1 right.1))
    (counts.items.filter fun p => p.1 ≠ "other" && versionBucketFloor ≤ p.2)).take versionBucketLimit).map Prod.fst

def bucketVersions (versions : List String) : OrderedMap String ℕ :=
  let counts := tally versions
  let named := namedVersions localeCompare counts
  tallyBy (fun p => if p.1 ∈ named then p.1 else "other") Prod.snd
    (sortBy (fun left right => localeCompare left.1 right.1) counts.items)

/-! ## The census -/

structure CensusDay (Digest : Type*) where
  date : ℤ
  peers : OrderedSet Digest
  agents : OrderedMap Digest Agent
  libraries : OrderedSet Digest
  samples : List ℕ

structure CensusWeek (Key Digest : Type*) where
  start : ℤ
  key : Key
  peers : OrderedSet Digest

def newDay {Digest : Type*} (date : ℤ) : CensusDay Digest := ⟨date, .empty, .empty, .empty, []⟩

def newWeek {Key Digest : Type*} (start : ℤ) (key : Key) : CensusWeek Key Digest := ⟨start, key, .empty⟩

/-- The rows still to write, in order, and those in the census's files as they were appended. -/
structure Census (Key Digest : Type*) where
  day : CensusDay Digest
  week : CensusWeek Key Digest
  writes : List CensusRow
  files : List CensusRow

/-- What the census reads of its surroundings: the clock, the peers connected, and fresh random bytes. -/
structure Moment (Key : Type*) where
  now : ℤ
  connectedPeerIds : List String
  randomBytes : Key

variable {Key Digest : Type*} [DecidableEq Digest] (hash : Key → String → Digest)

def rowOf (state : CensusDay Digest) (complete : Bool) : CensusRow where
  date := state.date
  complete := complete
  distinctPeerCount := state.peers.size
  peakConnectionCount := state.samples.foldl max 0
  medianConnectionCount := median state.samples
  maskedPeerCount := (state.agents.values.filter fun agent => agent.mode = some .masked).length
  announcedLibraryCount := state.libraries.size
  nodeVersionCounts :=
    bucketVersions localeCompare (state.peers.items.map fun peer => ((state.agents.get peer).map Agent.version).getD "other")
  rendezvousAddressCount := none
  weeklyDistinctPeerCount := none

namespace Census

def create (first second : ℤ) (key : Key) : Census Key Digest :=
  ⟨newDay (utcDate first), newWeek (weekStart second) key, [], []⟩

/-- A peer in the sets of the day and of the week. -/
def see (s : Census Key Digest) (peerId : String) : Census Key Digest :=
  { s with
    day := { s.day with peers := s.day.peers.add (hash s.week.key peerId) }
    week := { s.week with peers := s.week.peers.add (hash s.week.key peerId) } }

/-- Closes the day, and the week with it, when the clock has passed them. -/
def roll (s : Census Key Digest) (m : Moment Key) : Census Key Digest :=
  if utcDate m.now = s.day.date then s
  else
    let weekEnded := weekStart m.now ≠ s.week.start
    let weekly := if weekEnded then some s.week.peers.size else none
    let opened : Census Key Digest :=
      { s with
        day := newDay (utcDate m.now)
        week := if weekEnded then newWeek (weekStart m.now) m.randomBytes else s.week }
    let seeded := m.connectedPeerIds.foldl (see hash) opened
    { seeded with writes := s.writes ++ [{ rowOf localeCompare s.day true with weeklyDistinctPeerCount := weekly }] }

def prune (now : ℤ) (files : List CensusRow) : List CensusRow :=
  files.filter fun row => ¬ row.date < utcDate (now - retentionDays * dayMs)

def onConnectionOpen (s : Census Key Digest) (m : Moment Key) (peerId : String) : Census Key Digest :=
  (s.roll localeCompare hash m).see hash peerId

def onPeerIdentify (s : Census Key Digest) (m : Moment Key) (peerId : String) (agent : Option String) : Census Key Digest :=
  let seen := (s.roll localeCompare hash m).see hash peerId
  { seen with day := { seen.day with agents := seen.day.agents.set (hash seen.week.key peerId) (parseAgent agent) } }

def onLibraryAnnounced (s : Census Key Digest) (m : Moment Key) (libraryAddress : String) : Census Key Digest :=
  let rolled := s.roll localeCompare hash m
  { rolled with day := { rolled.day with libraries := rolled.day.libraries.add (hash rolled.week.key libraryAddress) } }

def sample (s : Census Key Digest) (connectedPeerCount : ℕ) : Census Key Digest :=
  { s with day := { s.day with samples := s.day.samples ++ [connectedPeerCount] } }

/-- The row at the head of the queue reaches its file; behind a closing row the old files go. -/
def write (s : Census Key Digest) (now : ℤ) (countRendezvousAddresses : Option ℕ) : Census Key Digest :=
  match s.writes with
  | [] => s
  | row :: rest =>
    if row.complete then
      let row := { row with rendezvousAddressCount := countRendezvousAddresses }
      { s with writes := rest, files := prune now (s.files ++ [row]) }
    else { s with writes := rest, files := s.files ++ [row] }

def stop (s : Census Key Digest) (m : Moment Key) : Census Key Digest :=
  let rolled := s.roll localeCompare hash m
  { rolled with writes := rolled.writes ++ [rowOf localeCompare rolled.day false] }

/-- The stored row of a day: the last complete one, else the last. -/
def storedRow (s : Census Key Digest) (date : ℤ) : Option CensusRow :=
  let rows := s.files.filter fun row => row.date = date
  (rows.reverse.find? CensusRow.complete).or rows.getLast?

/-- What a read of a day answers, after the roll it makes. -/
def readRow (s : Census Key Digest) (date : ℤ) : Option CensusRow :=
  if date = s.day.date then some (rowOf localeCompare s.day false) else s.storedRow date

end Census

inductive CensusLabel (Key : Type*) where
  | start (now : ℤ) (connectedPeerCount : ℕ)
  | connectionOpen (m : Moment Key) (peerId : String)
  | peerIdentify (m : Moment Key) (peerId : String) (agent : Option String)
  | libraryAnnounced (m : Moment Key) (libraryAddress : String)
  | tick (m : Moment Key) (connectedPeerCount : ℕ)
  | readRow (m : Moment Key)
  | write (now : ℤ) (countRendezvousAddresses : Option ℕ)
  | writeFailed
  | stop (m : Moment Key)
  -- the process starts again over the files it left
  | restart (first second : ℤ) (key : Key)

namespace Census

def step (s : Census Key Digest) : CensusLabel Key → Census Key Digest
  | .start now connectedPeerCount => { s with files := prune now s.files }.sample connectedPeerCount
  | .connectionOpen m peerId => s.onConnectionOpen localeCompare hash m peerId
  | .peerIdentify m peerId agent => s.onPeerIdentify localeCompare hash m peerId agent
  | .libraryAnnounced m libraryAddress => s.onLibraryAnnounced localeCompare hash m libraryAddress
  | .tick m connectedPeerCount => (s.roll localeCompare hash m).sample connectedPeerCount
  | .readRow m => s.roll localeCompare hash m
  | .write now countRendezvousAddresses => s.write now countRendezvousAddresses
  | .writeFailed => { s with writes := s.writes.tail }
  | .stop m => s.stop localeCompare hash m
  | .restart first second key => { (create first second key : Census Key Digest) with files := s.files }

/-- The census after what happened to it, from its creation on. -/
def run (s : Census Key Digest) (labels : List (CensusLabel Key)) : Census Key Digest :=
  labels.foldl (step localeCompare hash) s

end Census

/-! ## Names -/

/-- A name the agent pattern can read: the program and two numbers of one to three digits. -/
def IsVersionName (name : String) : Prop :=
  ∃ major minor : List Char, name = String.ofList (agentName ++ (major ++ '.' :: minor)) ∧
    (∀ c ∈ major ++ minor, c.isDigit = true) ∧ (1 ≤ major.length ∧ major.length ≤ 3) ∧ 1 ≤ minor.length ∧ minor.length ≤ 3

theorem parseVersion_name {text version rest : List Char} (h : parseVersion text = some (version, rest)) :
    IsVersionName (String.ofList (agentName ++ version)) := by
  simp only [parseVersion] at h
  split at h
  case h_2 => cases h
  case h_1 behind _ =>
    split at h
    case isFalse => cases h
    case isTrue hlengths =>
      injection h with h
      obtain ⟨rfl, -⟩ := Prod.mk.inj h
      refine ⟨_, _, rfl, ?_, ⟨hlengths.1, hlengths.2.1⟩, hlengths.2.2⟩
      intro c hc
      rcases List.mem_append.mp hc with hmajor | hminor
      · exact List.mem_takeWhile_imp hmajor
      · exact List.mem_takeWhile_imp hminor

theorem parseAgent_version (agent : Option String) :
    (parseAgent agent).version = "other" ∨ IsVersionName (parseAgent agent).version := by
  rw [parseAgent]
  cases hmatch : matchAgent (agent.getD "").toList with
  | none => exact .inl rfl
  | some found =>
    rw [matchAgent] at hmatch
    split at hmatch
    case isFalse => cases hmatch
    case isTrue =>
      split at hmatch
      · cases hmatch
      · next version rest hversion =>
        obtain ⟨mode, -, rfl⟩ := Option.map_eq_some_iff.mp hmatch
        exact .inr (parseVersion_name hversion)

/-! ## Buckets -/

section Buckets

variable {localeCompare : String → String → ℚ}

theorem mem_namedVersions {counts : OrderedMap String ℕ} {name : String} (h : name ∈ namedVersions localeCompare counts) :
    name ≠ "other" ∧ ∃ n, counts.get name = some n ∧ versionBucketFloor ≤ n := by
  obtain ⟨p, hp, rfl⟩ := List.mem_map.mp h
  have hkept := (mem_sortBy _ _ _).mp (List.mem_of_mem_take hp)
  obtain ⟨hmem, htest⟩ := List.mem_filter.mp hkept
  simp only [ne_eq, Bool.and_eq_true, decide_eq_true_eq] at htest
  exact ⟨htest.1, p.2, (counts.get_eq_some_iff p.1 p.2).mpr hmem, htest.2⟩

theorem length_namedVersions (counts : OrderedMap String ℕ) :
    (namedVersions localeCompare counts).length ≤ versionBucketLimit := by
  rw [namedVersions, List.length_map, List.length_take]
  exact Nat.min_le_left _ _

/-- No holder is lost or counted twice. -/
theorem sum_bucketVersions (versions : List String) :
    (bucketVersions localeCompare versions).values.sum = versions.length := by
  rw [bucketVersions, sum_tallyBy, ← sum_tally versions]
  exact ((sortBy_perm _ _).map Prod.snd).sum_eq

theorem mem_keys_bucketVersions {versions : List String} {name : String}
    (h : name ∈ (bucketVersions localeCompare versions).keys) :
    name = "other" ∨ name ∈ namedVersions localeCompare (tally versions) := by
  obtain ⟨p, -, rfl⟩ := mem_keys_tallyBy.mp h
  by_cases hnamed : p.1 ∈ namedVersions localeCompare (tally versions)
  · rw [if_pos hnamed]
    exact .inr hnamed
  · rw [if_neg hnamed]
    exact .inl rfl

theorem size_bucketVersions (versions : List String) :
    (bucketVersions localeCompare versions).size ≤ versionBucketLimit + 1 := by
  have hsub : (bucketVersions localeCompare versions).keys ⊆ "other" :: namedVersions localeCompare (tally versions) := by
    intro name hname
    rcases mem_keys_bucketVersions hname with rfl | hnamed
    · exact List.mem_cons_self
    · exact List.mem_cons_of_mem _ hnamed
  have hnodup : (bucketVersions localeCompare versions).keys.Nodup := (bucketVersions localeCompare versions).keys_nodup
  have hlength := (hnodup.subperm hsub).length_le
  have hnamed : (namedVersions localeCompare (tally versions)).length ≤ versionBucketLimit := length_namedVersions _
  rw [List.length_cons] at hlength
  rw [OrderedMap.size, ← List.length_map (f := Prod.fst)]
  exact hlength.trans (by omega)

/-- A bucket with a version's name counts that version's holders. -/
theorem get_bucketVersions {versions : List String} {name : String} {n : ℕ} (hother : name ≠ "other")
    (h : (bucketVersions localeCompare versions).get name = some n) :
    versionBucketFloor ≤ n ∧ n = versions.count name := by
  have hkey := ((bucketVersions localeCompare versions).mem_keys_iff name).mpr ⟨n, h⟩
  have hnamed := (mem_keys_bucketVersions hkey).resolve_left hother
  obtain ⟨-, m, hm, hfloor⟩ := mem_namedVersions hnamed
  have hcount := get_tally versions name
  have hsum : ((bucketVersions localeCompare versions).get name).getD 0 =
      (((sortBy (fun left right => localeCompare left.1 right.1) (tally versions).items).filter fun p =>
        (if p.1 ∈ namedVersions localeCompare (tally versions) then p.1 else "other") = name).map Prod.snd).sum :=
    get_tallyBy _ name
  have hbucket (p : String × ℕ) :
      (if p.1 ∈ namedVersions localeCompare (tally versions) then p.1 else "other") = name ↔ p.1 = name := by
    split
    · exact Iff.rfl
    case isFalse hout => exact ⟨fun heq => absurd heq.symm hother, fun heq => absurd (heq ▸ hnamed) hout⟩
  simp only [hbucket] at hsum
  rw [(((sortBy_perm _ _).filter _).map Prod.snd).sum_eq, sum_filter_key, hcount, h, Option.getD_some] at hsum
  rw [hm, Option.getD_some] at hcount
  exact ⟨by omega, hsum⟩

end Buckets

/-! ## Samples -/

theorem le_foldl_max (l : List ℕ) (start : ℕ) : start ≤ l.foldl max start ∧ ∀ n ∈ l, n ≤ l.foldl max start := by
  induction l generalizing start with
  | nil => exact ⟨le_rfl, fun n hn => absurd hn List.not_mem_nil⟩
  | cons m rest ih =>
    obtain ⟨hstart, hrest⟩ := ih (max start m)
    refine ⟨(Nat.le_max_left _ _).trans hstart, ?_⟩
    rw [List.forall_mem_cons]
    exact ⟨(Nat.le_max_right _ _).trans hstart, hrest⟩

/-- The median of samples is within any bound on them. -/
theorem median_le {values : List ℕ} {bound : ℕ} (h : ∀ n ∈ values, n ≤ bound) : median values ≤ bound := by
  have hsorted (i : ℕ) : (values.insertionSort (· ≤ ·)).getD i 0 ≤ bound := by
    rw [List.getD_eq_getElem?_getD]
    cases hi : (values.insertionSort (· ≤ ·))[i]? with
    | none => exact Nat.zero_le _
    | some n => exact h n ((List.mem_insertionSort _).mp (List.mem_of_getElem? hi))
  rw [median]
  split
  · exact Nat.zero_le _
  · have hbelow := hsorted ((values.insertionSort (· ≤ ·)).length / 2 - 1)
    have hmiddle := hsorted ((values.insertionSort (· ≤ ·)).length / 2)
    simp only
    split
    · exact hmiddle
    · omega

/-! ## What a row says -/

/-- The counts of a row agree with one another, and its names are names of versions. -/
structure CensusRow.Sound (row : CensusRow) : Prop where
  versions : row.nodeVersionCounts.values.sum = row.distinctPeerCount
  named : ∀ name n, row.nodeVersionCounts.get name = some n → name = "other" ∨ IsVersionName name ∧ versionBucketFloor ≤ n
  buckets : row.nodeVersionCounts.size ≤ versionBucketLimit + 1
  masked : row.maskedPeerCount ≤ row.distinctPeerCount
  median : row.medianConnectionCount ≤ row.peakConnectionCount
  weekly : ∀ weekly ∈ row.weeklyDistinctPeerCount, row.distinctPeerCount ≤ weekly

section Invariant

variable {localeCompare : String → String → ℚ} {Key Digest : Type*}

/-- The agents of a day are those of its peers, and say no more than a version and a mode. -/
structure CensusDay.Good (day : CensusDay Digest) : Prop where
  agents : ∀ p ∈ day.agents.items, p.1 ∈ day.peers
  names : ∀ p ∈ day.agents.items, p.2.version = "other" ∨ IsVersionName p.2.version

theorem CensusDay.Good.row [DecidableEq Digest] {day : CensusDay Digest} (h : day.Good) (complete : Bool) : (rowOf localeCompare day complete).Sound where
  versions := by
    change (bucketVersions localeCompare _).values.sum = day.peers.size
    rw [sum_bucketVersions, List.length_map]
    rfl
  named name n hget := by
    by_cases hother : name = "other"
    · exact .inl hother
    · obtain ⟨hfloor, hcount⟩ := get_bucketVersions hother hget
      have hpos : 0 < n := hfloor.trans_lt' (by decide)
      have hmem := List.count_pos_iff.mp (hcount ▸ hpos)
      obtain ⟨peer, -, hversion⟩ := List.mem_map.mp hmem
      cases hagent : day.agents.get peer with
      | none =>
        rw [hagent] at hversion
        exact absurd hversion.symm hother
      | some agent =>
        rw [hagent] at hversion
        have hname := h.names _ ((day.agents.get_eq_some_iff peer agent).mp hagent)
        change agent.version = name at hversion
        rw [hversion] at hname
        exact .inr ⟨hname.resolve_left hother, hfloor⟩
  buckets := size_bucketVersions _
  masked := by
    have hsub : day.agents.keys ⊆ day.peers.items := by
      intro peer hpeer
      obtain ⟨p, hp, rfl⟩ := List.mem_map.mp hpeer
      exact h.agents p hp
    have hnodup : day.agents.keys.Nodup := day.agents.keys_nodup
    have hlength := (hnodup.subperm hsub).length_le
    have hfilter := List.length_filter_le (fun agent : Agent => agent.mode = some .masked) day.agents.values
    change (day.agents.values.filter fun agent => agent.mode = some .masked).length ≤ day.peers.items.length
    rw [OrderedMap.keys, List.length_map] at hlength
    rw [OrderedMap.values, List.length_map] at hfilter
    exact hfilter.trans hlength
  median := median_le (le_foldl_max day.samples 0).2
  weekly _ hweekly := by cases hweekly

namespace Census

/-- Every row is sound, and the peers of the day are among those of the week. -/
structure Good (s : Census Key Digest) : Prop where
  day : s.day.Good
  week : ∀ peer ∈ s.day.peers, peer ∈ s.week.peers
  writes : ∀ row ∈ s.writes, row.Sound
  files : ∀ row ∈ s.files, row.Sound

variable {s : Census Key Digest}

theorem good_newDay (date : ℤ) : (newDay date : CensusDay Digest).Good :=
  ⟨fun _ h => absurd h List.not_mem_nil, fun _ h => absurd h List.not_mem_nil⟩

theorem good_create (first second : ℤ) (key : Key) : Good (create first second key : Census Key Digest) where
  day := good_newDay _
  week _ h := absurd h (OrderedSet.mem_empty _)
  writes _ h := absurd h List.not_mem_nil
  files _ h := absurd h List.not_mem_nil

theorem Good.size_le (h : s.Good) : s.day.peers.size ≤ s.week.peers.size := (s.day.peers.nodup.subperm h.week).length_le

theorem mem_storedRow {date : ℤ} {row : CensusRow} (h : s.storedRow date = some row) : row ∈ s.files ∧ row.date = date := by
  have hmem : row ∈ s.files.filter fun row => row.date = date := by
    rcases Option.or_eq_some_iff.mp h with hfound | ⟨-, hlast⟩
    · exact List.mem_reverse.mp (List.mem_of_find?_eq_some hfound)
    · exact List.mem_of_getLast? hlast
  simpa using List.mem_filter.mp hmem

theorem Good.write (h : s.Good) (now : ℤ) (countRendezvousAddresses : Option ℕ) :
    (s.write now countRendezvousAddresses).Good := by
  unfold Census.write
  split
  · exact h
  · next row rest hwrites =>
    have hrows := h.writes
    rw [hwrites, List.forall_mem_cons] at hrows
    obtain ⟨hrow, hrest⟩ := hrows
    have hfiles (written : CensusRow) (hwritten : written.Sound) : ∀ row ∈ s.files ++ [written], row.Sound :=
      List.forall_mem_append.mpr ⟨h.files, List.forall_mem_singleton.mpr hwritten⟩
    have hlooked : ({ row with rendezvousAddressCount := countRendezvousAddresses } : CensusRow).Sound := { hrow with }
    split
    · exact ⟨h.day, h.week, hrest, fun stored hmem => hfiles _ hlooked stored (List.mem_filter.mp hmem).1⟩
    · exact ⟨h.day, h.week, hrest, hfiles row hrow⟩

variable [DecidableEq Digest] {hash : Key → String → Digest}

theorem Good.see (h : s.Good) (peerId : String) : (s.see hash peerId).Good where
  day := ⟨fun p hp => (OrderedSet.mem_add _ _ _).mpr (.inr (h.day.agents p hp)), h.day.names⟩
  week peer hpeer := by
    rcases (OrderedSet.mem_add _ _ _).mp hpeer with rfl | hold
    · exact (OrderedSet.mem_add _ _ _).mpr (.inl rfl)
    · exact (OrderedSet.mem_add _ _ _).mpr (.inr (h.week peer hold))
  writes := h.writes
  files := h.files

theorem Good.seeAll (h : s.Good) (hash : Key → String → Digest) (peerIds : List String) : (peerIds.foldl (Census.see hash) s).Good := by
  induction peerIds generalizing s with
  | nil => exact h
  | cons peerId rest ih => exact ih (h.see peerId)

/-- The row a day closes with. -/
theorem Good.closed (h : s.Good) {weekly : Option ℕ} (hweekly : ∀ n ∈ weekly, n = s.week.peers.size) :
    ({ rowOf localeCompare s.day true with weeklyDistinctPeerCount := weekly } : CensusRow).Sound :=
  { h.day.row true with weekly := fun n hn => hweekly n hn ▸ h.size_le }

theorem Good.roll (h : s.Good) (m : Moment Key) : (s.roll localeCompare hash m).Good := by
  unfold Census.roll
  split
  · exact h
  · have hopened : Good ({ s with
        day := newDay (utcDate m.now)
        week := if weekStart m.now ≠ s.week.start then newWeek (weekStart m.now) m.randomBytes else s.week } : Census Key Digest) :=
      ⟨good_newDay _, fun peer hpeer => absurd hpeer (OrderedSet.mem_empty peer), h.writes, h.files⟩
    have hseeded := hopened.seeAll hash m.connectedPeerIds
    refine ⟨hseeded.day, hseeded.week, ?_, hseeded.files⟩
    intro row hrow
    rcases List.mem_append.mp hrow with hold | hnew
    · exact h.writes row hold
    · rw [List.mem_singleton.mp hnew]
      apply h.closed
      intro n hn
      split at hn
      · exact (Option.some_inj.mp hn).symm
      · cases hn

theorem Good.step (h : s.Good) (l : CensusLabel Key) : (s.step localeCompare hash l).Good := by
  cases l with
  | start now connectedPeerCount =>
    exact ⟨⟨h.day.agents, h.day.names⟩, h.week, h.writes, fun row hrow => h.files row (List.mem_filter.mp hrow).1⟩
  | connectionOpen m peerId => exact (h.roll m).see peerId
  | peerIdentify m peerId agent =>
    have hseen : ((s.roll localeCompare hash m).see hash peerId).Good := (h.roll m).see peerId
    have hpeer : hash (s.roll localeCompare hash m).week.key peerId ∈ ((s.roll localeCompare hash m).see hash peerId).day.peers :=
      (OrderedSet.mem_add _ _ _).mpr (.inl rfl)
    refine ⟨⟨?_, ?_⟩, hseen.week, hseen.writes, hseen.files⟩
    · intro p hp
      rcases OrderedMap.mem_items_set.mp hp with rfl | ⟨hold, -⟩
      · exact hpeer
      · exact hseen.day.agents p hold
    · intro p hp
      rcases OrderedMap.mem_items_set.mp hp with rfl | ⟨hold, -⟩
      · exact parseAgent_version agent
      · exact hseen.day.names p hold
  | libraryAnnounced m libraryAddress =>
    have hrolled : (s.roll localeCompare hash m).Good := h.roll m
    exact ⟨⟨hrolled.day.agents, hrolled.day.names⟩, hrolled.week, hrolled.writes, hrolled.files⟩
  | tick m connectedPeerCount =>
    have hrolled : (s.roll localeCompare hash m).Good := h.roll m
    exact ⟨⟨hrolled.day.agents, hrolled.day.names⟩, hrolled.week, hrolled.writes, hrolled.files⟩
  | readRow m => exact h.roll m
  | write now countRendezvousAddresses => exact h.write now countRendezvousAddresses
  | writeFailed => exact ⟨h.day, h.week, fun row hrow => h.writes row (List.mem_of_mem_tail hrow), h.files⟩
  | stop m =>
    have hrolled : (s.roll localeCompare hash m).Good := h.roll m
    exact ⟨hrolled.day, hrolled.week,
      List.forall_mem_append.mpr ⟨hrolled.writes, List.forall_mem_singleton.mpr (hrolled.day.row false)⟩, hrolled.files⟩
  | restart first second key => exact { good_create first second key with files := h.files }

theorem Good.run (h : s.Good) (labels : List (CensusLabel Key)) : (s.run localeCompare hash labels).Good := by
  induction labels generalizing s with
  | nil => exact h
  | cons l rest ih => exact ih (h.step l)

end Census

variable [DecidableEq Digest] {hash : Key → String → Digest}

/-- However the peers come and go, the clock moves and the process restarts, every row the census
queues, stores or answers with is sound. -/
theorem census_rows_sound (first second : ℤ) (key : Key) (labels : List (CensusLabel Key)) :
    (∀ row ∈ ((Census.create first second key).run localeCompare hash labels).writes ++
      ((Census.create first second key).run localeCompare hash labels).files, row.Sound) ∧
    ∀ date row, ((Census.create first second key).run localeCompare hash labels).readRow localeCompare date = some row →
      row.Sound ∧ row.date = date := by
  have hgood : ((Census.create first second key).run localeCompare hash labels).Good :=
    (Census.good_create first second key).run labels
  refine ⟨List.forall_mem_append.mpr ⟨hgood.writes, hgood.files⟩, ?_⟩
  intro date row hread
  rw [Census.readRow] at hread
  split at hread
  · next htoday =>
    obtain rfl := Option.some_inj.mp hread
    exact ⟨hgood.day.row false, htoday.symm⟩
  · obtain ⟨hmem, hdate⟩ := Census.mem_storedRow hread
    exact ⟨hgood.files row hmem, hdate⟩

end Invariant

/-! ## What the keyed hash costs -/

section Renaming

variable {localeCompare : String → String → ℚ} {Key Digest : Type*} {hash : Key → String → Digest}

/-- The peer ids and library addresses that come in with a label. -/
def CensusLabel.ids : CensusLabel Key → List String
  | .connectionOpen m peerId => peerId :: m.connectedPeerIds
  | .peerIdentify m peerId _ => peerId :: m.connectedPeerIds
  | .libraryAnnounced m libraryAddress => libraryAddress :: m.connectedPeerIds
  | .tick m _ => m.connectedPeerIds
  | .readRow m => m.connectedPeerIds
  | .stop m => m.connectedPeerIds
  | .start .. | .write .. | .writeFailed | .restart .. => []

/-- The hash of a census that keeps the ids as they are. -/
def plainHash (_ : Key) (id : String) : String := id

namespace Census

/-- The digests of one census stand for the ids of another; all else is the same. -/
structure Renames (ids : Set String) (hash : Key → String → Digest) (plain : Census Key String) (s : Census Key Digest) : Prop where
  date : s.day.date = plain.day.date
  peers : RenamesSet ids (hash s.week.key) plain.day.peers s.day.peers
  agents : RenamesMap ids (hash s.week.key) plain.day.agents s.day.agents
  libraries : RenamesSet ids (hash s.week.key) plain.day.libraries s.day.libraries
  samples : s.day.samples = plain.day.samples
  start : s.week.start = plain.week.start
  week : RenamesSet ids (hash s.week.key) plain.week.peers s.week.peers
  writes : s.writes = plain.writes
  files : s.files = plain.files

variable {ids : Set String} {plain : Census Key String} {s : Census Key Digest}

theorem Renames.create (first second : ℤ) (key : Key) :
    Renames ids hash (create first second key) (create first second key) :=
  ⟨rfl, .empty, .empty, .empty, rfl, rfl, .empty, rfl, rfl⟩

theorem Renames.write (h : Renames ids hash plain s) (now : ℤ) (countRendezvousAddresses : Option ℕ) :
    Renames ids hash (plain.write now countRendezvousAddresses) (s.write now countRendezvousAddresses) := by
  unfold Census.write
  rw [h.writes, h.files]
  split
  · exact h
  · split
    · exact { h with writes := rfl, files := rfl }
    · exact { h with writes := rfl, files := rfl }

variable [DecidableEq Digest]

theorem Renames.rowOf_eq (h : Renames ids hash plain s) (hinj : ∀ key, Set.InjOn (hash key) ids) (complete : Bool) :
    rowOf localeCompare s.day complete = rowOf localeCompare plain.day complete := by
  have hversions : (s.day.peers.items.map fun peer => ((s.day.agents.get peer).map Agent.version).getD "other") =
      plain.day.peers.items.map fun peer => ((plain.day.agents.get peer).map Agent.version).getD "other" := by
    rw [h.peers.items, List.map_map]
    apply List.map_congr_left
    intro id hid
    rw [Function.comp_apply, h.agents.get_eq (hinj _) (h.peers.within id hid)]
  rw [rowOf, rowOf, hversions, h.date, h.samples, h.peers.size_eq, h.libraries.size_eq, h.agents.values_eq]

theorem Renames.see (h : Renames ids hash plain s) (hinj : ∀ key, Set.InjOn (hash key) ids) {id : String} (hid : id ∈ ids) :
    Renames ids hash (plain.see plainHash id) (s.see hash id) :=
  { h with peers := h.peers.add (hinj _) hid, week := h.week.add (hinj _) hid }

theorem Renames.seeAll (h : Renames ids hash plain s) (hinj : ∀ key, Set.InjOn (hash key) ids) {peerIds : List String}
    (hids : ∀ id ∈ peerIds, id ∈ ids) :
    Renames ids hash (peerIds.foldl (Census.see plainHash) plain) (peerIds.foldl (Census.see hash) s) := by
  induction peerIds generalizing s plain with
  | nil => exact h
  | cons peerId rest ih =>
    obtain ⟨hpeer, hrest⟩ := List.forall_mem_cons.mp hids
    exact ih (h.see hinj hpeer) hrest

theorem Renames.roll (h : Renames ids hash plain s) (hinj : ∀ key, Set.InjOn (hash key) ids) {m : Moment Key}
    (hids : ∀ id ∈ m.connectedPeerIds, id ∈ ids) :
    Renames ids hash (plain.roll localeCompare plainHash m) (s.roll localeCompare hash m) := by
  unfold Census.roll
  rw [h.date, h.start, h.week.size_eq, h.rowOf_eq hinj, h.writes]
  split
  · exact h
  · by_cases hweek : weekStart m.now = plain.week.start
    · simp only [hweek, ne_eq, not_true_eq_false, if_false]
      have hopened : Renames ids hash
          ({ plain with day := newDay (utcDate m.now) } : Census Key String)
          ({ s with day := newDay (utcDate m.now), writes := plain.writes } : Census Key Digest) :=
        ⟨rfl, .empty, .empty, .empty, rfl, h.start, h.week, rfl, h.files⟩
      exact { hopened.seeAll hinj hids with writes := rfl }
    · simp only [hweek, ne_eq, not_false_eq_true, if_true]
      have hopened : Renames ids hash
          ({ plain with day := newDay (utcDate m.now), week := newWeek (weekStart m.now) m.randomBytes } : Census Key String)
          (⟨newDay (utcDate m.now), newWeek (weekStart m.now) m.randomBytes, plain.writes, s.files⟩ : Census Key Digest) :=
        ⟨rfl, .empty, .empty, .empty, rfl, rfl, .empty, rfl, h.files⟩
      exact { hopened.seeAll hinj hids with writes := rfl }

theorem Renames.step (h : Renames ids hash plain s) (hinj : ∀ key, Set.InjOn (hash key) ids) {l : CensusLabel Key}
    (hids : ∀ id ∈ l.ids, id ∈ ids) :
    Renames ids hash (plain.step localeCompare plainHash l) (s.step localeCompare hash l) := by
  cases l with
  | start now connectedPeerCount =>
    exact { h with samples := congrArg (· ++ _) h.samples, files := congrArg (prune now) h.files }
  | connectionOpen m peerId =>
    obtain ⟨hpeer, hconnected⟩ := List.forall_mem_cons.mp hids
    exact (h.roll hinj hconnected).see hinj hpeer
  | peerIdentify m peerId agent =>
    obtain ⟨hpeer, hconnected⟩ := List.forall_mem_cons.mp hids
    have hseen : Renames ids hash ((plain.roll localeCompare plainHash m).see plainHash peerId)
        ((s.roll localeCompare hash m).see hash peerId) := (h.roll hinj hconnected).see hinj hpeer
    exact { hseen with agents := hseen.agents.set (hinj _) hpeer (parseAgent agent) }
  | libraryAnnounced m libraryAddress =>
    obtain ⟨hlibrary, hconnected⟩ := List.forall_mem_cons.mp hids
    have hrolled : Renames ids hash (plain.roll localeCompare plainHash m) (s.roll localeCompare hash m) :=
      h.roll hinj hconnected
    exact { hrolled with libraries := hrolled.libraries.add (hinj _) hlibrary }
  | tick m connectedPeerCount =>
    have hrolled : Renames ids hash (plain.roll localeCompare plainHash m) (s.roll localeCompare hash m) :=
      h.roll hinj hids
    exact { hrolled with samples := congrArg (· ++ _) hrolled.samples }
  | readRow m => exact h.roll hinj hids
  | write now countRendezvousAddresses => exact h.write now countRendezvousAddresses
  | writeFailed => exact { h with writes := congrArg List.tail h.writes }
  | stop m =>
    have hrolled : Renames ids hash (plain.roll localeCompare plainHash m) (s.roll localeCompare hash m) :=
      h.roll hinj hids
    exact { hrolled with writes := congrArg₂ (fun writes row => writes ++ [row]) hrolled.writes (hrolled.rowOf_eq hinj false) }
  | restart first second key => exact { Renames.create first second key with files := h.files }

theorem Renames.run (h : Renames ids hash plain s) (hinj : ∀ key, Set.InjOn (hash key) ids) {labels : List (CensusLabel Key)}
    (hids : ∀ l ∈ labels, ∀ id ∈ l.ids, id ∈ ids) :
    Renames ids hash (plain.run localeCompare plainHash labels) (s.run localeCompare hash labels) := by
  induction labels generalizing s plain with
  | nil => exact h
  | cons l rest ih =>
    obtain ⟨hl, hrest⟩ := List.forall_mem_cons.mp hids
    exact ih (h.step hinj hl) hrest

end Census

variable [DecidableEq Digest]

/-- Where the keyed hash tells apart the ids that came in, the census that keeps digests queues,
stores and answers with the rows of one that keeps the ids themselves. -/
theorem census_hash_exact (first second : ℤ) (key : Key) (labels : List (CensusLabel Key))
    (hinj : ∀ key, Set.InjOn (hash key) {id | ∃ l ∈ labels, id ∈ l.ids}) :
    ((Census.create first second key).run localeCompare hash labels).writes =
        ((Census.create first second key).run localeCompare plainHash labels).writes ∧
      ((Census.create first second key).run localeCompare hash labels).files =
        ((Census.create first second key).run localeCompare plainHash labels).files ∧
      ∀ date, ((Census.create first second key).run localeCompare hash labels).readRow localeCompare date =
        ((Census.create first second key).run localeCompare plainHash labels).readRow localeCompare date := by
  have h : Census.Renames _ hash ((Census.create first second key).run localeCompare plainHash labels)
      ((Census.create first second key).run localeCompare hash labels) :=
    (Census.Renames.create first second key).run hinj fun l hl id hid => ⟨l, hl, hid⟩
  refine ⟨h.writes, h.files, ?_⟩
  intro date
  rw [Census.readRow, Census.readRow, Census.storedRow, Census.storedRow, h.date, h.files, h.rowOf_eq hinj]

/-- Two peers on the first day, one of them still connected on the second. -/
def twoDays : List (CensusLabel ℕ) :=
  [.connectionOpen ⟨0, [], 1⟩ "first", .peerIdentify ⟨1, ["first"], 1⟩ "second" (some "record-node/1.2 (masked)"),
    .tick ⟨dayMs, ["first"], 2⟩ 1, .write dayMs none]

theorem census_hash_exact_two :
    ((Census.create 0 0 7).run (fun _ _ => 0) Prod.mk twoDays).files =
      ((Census.create 0 0 7).run (fun _ _ => 0) plainHash twoDays).files :=
  (census_hash_exact 0 0 7 twoDays fun _ _ _ _ _ h => (Prod.mk.inj h).2).2.1

end Renaming

/-! ## Days close once -/

section Days

variable {localeCompare : String → String → ℚ} {Key Digest : Type*} {hash : Key → String → Digest}

/-- The readings of the clock that a label makes. -/
def CensusLabel.times : CensusLabel Key → List ℤ
  | .start now _ => [now]
  | .connectionOpen m _ => [m.now]
  | .peerIdentify m _ _ => [m.now]
  | .libraryAnnounced m _ => [m.now]
  | .tick m _ => [m.now]
  | .readRow m => [m.now]
  | .write now _ => [now]
  | .writeFailed => []
  | .stop m => [m.now]
  | .restart first second _ => [first, second]

namespace Census

/-- The dates of the complete rows, stored and queued, in the order they were closed. -/
def closedDates (s : Census Key Digest) : List ℤ := ((s.files ++ s.writes).filter CensusRow.complete).map CensusRow.date

/-- The days were closed in their order, all before the day in progress. -/
structure Dated (s : Census Key Digest) (now : ℤ) : Prop where
  increasing : s.closedDates.Pairwise (· < ·)
  closed : ∀ date ∈ s.closedDates, date < s.day.date
  today : s.day.date ≤ utcDate now

variable {s t : Census Key Digest} {now later : ℤ}

theorem utcDate_mono (h : now ≤ later) : utcDate now ≤ utcDate later := Int.ediv_le_ediv (by decide) h

theorem Dated.mono (h : s.Dated now) (hsub : t.closedDates.Sublist s.closedDates) (hday : t.day.date = s.day.date)
    (hlater : now ≤ later) : t.Dated later where
  increasing := h.increasing.sublist hsub
  closed date hdate := hday ▸ h.closed date (hsub.subset hdate)
  today := hday ▸ h.today.trans (utcDate_mono hlater)

theorem write_date (s : Census Key Digest) (now : ℤ) (countRendezvousAddresses : Option ℕ) :
    (s.write now countRendezvousAddresses).day.date = s.day.date := by
  unfold Census.write
  split
  · rfl
  · split
    · rfl
    · rfl

theorem closedDates_write (s : Census Key Digest) (now : ℤ) (countRendezvousAddresses : Option ℕ) :
    (s.write now countRendezvousAddresses).closedDates.Sublist s.closedDates := by
  unfold Census.write
  split
  · exact List.Sublist.refl _
  · next row rest hwrites =>
    have hmoved (written : CensusRow) (hdate : written.date = row.date) (hcomplete : written.complete = row.complete) :
        ((s.files ++ [written] ++ rest).filter CensusRow.complete).map CensusRow.date = s.closedDates := by
      rw [closedDates, hwrites, List.append_assoc, List.singleton_append, List.filter_append, List.filter_append,
        List.filter_cons, List.filter_cons, hcomplete]
      split
      · rw [List.map_append, List.map_append, List.map_cons, List.map_cons, hdate]
      · rfl
    split
    · rw [← hmoved { row with rendezvousAddressCount := countRendezvousAddresses } rfl rfl]
      exact ((List.filter_sublist.append_right rest).filter _).map _
    · rw [← hmoved row rfl rfl]
      exact List.Sublist.refl _

variable [DecidableEq Digest]

variable (hash) in
theorem seeAll_date (s : Census Key Digest) (peerIds : List String) :
    (peerIds.foldl (see hash) s).day.date = s.day.date ∧ (peerIds.foldl (see hash) s).files = s.files := by
  induction peerIds generalizing s with
  | nil => exact ⟨rfl, rfl⟩
  | cons peerId rest ih => exact ih (s.see hash peerId)

variable (localeCompare hash) in
/-- A roll leaves everything, or opens the clock's day and closes the one before. -/
theorem roll_dates (s : Census Key Digest) (m : Moment Key) :
    (s.roll localeCompare hash m).day.date = utcDate m.now ∧
      ((s.roll localeCompare hash m) = s ∨
        utcDate m.now ≠ s.day.date ∧ (s.roll localeCompare hash m).closedDates = s.closedDates ++ [s.day.date]) := by
  unfold Census.roll
  split
  · next hsame => exact ⟨hsame.symm, .inl rfl⟩
  · next hpassed =>
    obtain ⟨hdate, hfiles⟩ := seeAll_date hash ({ s with
      day := newDay (utcDate m.now)
      week := if weekStart m.now ≠ s.week.start then newWeek (weekStart m.now) m.randomBytes else s.week } : Census Key Digest)
      m.connectedPeerIds
    refine ⟨hdate, .inr ⟨hpassed, ?_⟩⟩
    simp only [closedDates, hfiles, ← List.append_assoc]
    rw [List.filter_append, List.map_append]
    rfl

/-- A roll under a clock that has not gone back keeps the days in order. -/
theorem Dated.roll (h : s.Dated now) {m : Moment Key} (hm : now ≤ m.now) : (s.roll localeCompare hash m).Dated m.now := by
  obtain ⟨hdate, heq | ⟨hpassed, hclosed⟩⟩ := roll_dates localeCompare hash s m
  · rw [heq]
    exact h.mono (List.Sublist.refl _) rfl hm
  · have hforward : s.day.date < utcDate m.now := lt_of_le_of_ne (h.today.trans (utcDate_mono hm)) (Ne.symm hpassed)
    refine ⟨?_, ?_, hdate.le⟩
    · rw [hclosed]
      apply List.pairwise_append.mpr
      exact ⟨h.increasing, List.pairwise_singleton _ _, fun date hd last hlast => List.mem_singleton.mp hlast ▸ h.closed date hd⟩
    · rw [hclosed, hdate, List.forall_mem_append, List.forall_mem_singleton]
      exact ⟨fun date hd => (h.closed date hd).trans hforward, hforward⟩

theorem Dated.step (h : s.Dated now) {l : CensusLabel Key} (hl : (now :: l.times).Pairwise (· ≤ ·)) :
    (s.step localeCompare hash l).Dated (l.times.getLastD now) := by
  cases l with
  | start moment connectedPeerCount =>
    refine h.mono ?_ rfl (List.rel_of_pairwise_cons hl List.mem_cons_self)
    exact ((List.filter_sublist.append_right _).filter _).map _
  | connectionOpen m peerId =>
    have hrolled : (s.roll localeCompare hash m).Dated m.now := h.roll (List.rel_of_pairwise_cons hl List.mem_cons_self)
    exact ⟨hrolled.increasing, hrolled.closed, hrolled.today⟩
  | peerIdentify m peerId agent =>
    have hrolled : (s.roll localeCompare hash m).Dated m.now := h.roll (List.rel_of_pairwise_cons hl List.mem_cons_self)
    exact ⟨hrolled.increasing, hrolled.closed, hrolled.today⟩
  | libraryAnnounced m libraryAddress =>
    have hrolled : (s.roll localeCompare hash m).Dated m.now := h.roll (List.rel_of_pairwise_cons hl List.mem_cons_self)
    exact ⟨hrolled.increasing, hrolled.closed, hrolled.today⟩
  | tick m connectedPeerCount =>
    have hrolled : (s.roll localeCompare hash m).Dated m.now := h.roll (List.rel_of_pairwise_cons hl List.mem_cons_self)
    exact ⟨hrolled.increasing, hrolled.closed, hrolled.today⟩
  | readRow m => exact h.roll (List.rel_of_pairwise_cons hl List.mem_cons_self)
  | write moment countRendezvousAddresses =>
    exact h.mono (closedDates_write _ _ _) (write_date _ _ _) (List.rel_of_pairwise_cons hl List.mem_cons_self)
  | writeFailed => exact h.mono ((((List.tail_sublist _).append_left _).filter _).map _) rfl le_rfl
  | stop m =>
    have hrolled : (s.roll localeCompare hash m).Dated m.now := h.roll (List.rel_of_pairwise_cons hl List.mem_cons_self)
    refine hrolled.mono ?_ rfl le_rfl
    have hsame : (s.stop localeCompare hash m).closedDates = (s.roll localeCompare hash m).closedDates := by
      -- the row of the day in progress is not complete
      simp only [Census.stop, closedDates]
      rw [← List.append_assoc, List.filter_append, List.filter_cons_of_neg (by simp [rowOf]), List.filter_nil, List.append_nil]
    change (s.stop localeCompare hash m).closedDates.Sublist _
    rw [hsame]
  | restart first second key =>
    obtain ⟨hnow, hrest⟩ := List.pairwise_cons.mp hl
    have hfirst := hnow first List.mem_cons_self
    have hsecond := List.rel_of_pairwise_cons hrest List.mem_cons_self
    have hsub : ((s.files ++ []).filter CensusRow.complete).map CensusRow.date |>.Sublist s.closedDates :=
      (((List.nil_sublist _).append_left _).filter _).map _
    refine ⟨h.increasing.sublist hsub, ?_, utcDate_mono hsecond⟩
    intro date hdate
    exact (h.closed date (hsub.subset hdate)).trans_le (h.today.trans (utcDate_mono hfirst))

theorem Dated.run (h : s.Dated now) {labels : List (CensusLabel Key)}
    (hclock : (now :: labels.flatMap CensusLabel.times).Pairwise (· ≤ ·)) :
    ∃ later, (s.run localeCompare hash labels).Dated later := by
  induction labels generalizing s now with
  | nil => exact ⟨now, h⟩
  | cons l rest ih =>
    rw [List.flatMap_cons, ← List.cons_append] at hclock
    obtain ⟨hfront, hrest, hacross⟩ := List.pairwise_append.mp hclock
    exact ih (h.step hfront) (List.pairwise_cons.mpr ⟨hacross _ List.getLastD_mem_cons, hrest⟩)

/-- The answer for a day that has closed is the row it closed with. -/
theorem Dated.readRow (h : s.Dated now) {row : CensusRow} (hrow : row ∈ s.files) (hcomplete : row.complete = true) :
    s.readRow localeCompare row.date = some row := by
  have hmem : row ∈ (s.files ++ s.writes).filter CensusRow.complete :=
    List.mem_filter.mpr ⟨List.mem_append_left _ hrow, hcomplete⟩
  have hpast : row.date < s.day.date := h.closed _ (List.mem_map_of_mem hmem)
  have hnodup : (((s.files ++ s.writes).filter CensusRow.complete).map CensusRow.date).Nodup :=
    h.increasing.imp fun hlt => hlt.ne
  have hstored : row ∈ (s.files.filter fun stored => stored.date = row.date).reverse :=
    List.mem_reverse.mpr (List.mem_filter.mpr ⟨hrow, by simp⟩)
  rw [Census.readRow, if_neg hpast.ne, storedRow]
  cases hfind : (s.files.filter fun stored => stored.date = row.date).reverse.find? CensusRow.complete with
  | none =>
    have hnone := List.find?_eq_none.mp hfind row hstored
    exact absurd hcomplete hnone
  | some found =>
    have hfound := List.mem_filter.mp (List.mem_reverse.mp (List.mem_of_find?_eq_some hfind))
    have hother : found ∈ (s.files ++ s.writes).filter CensusRow.complete :=
      List.mem_filter.mpr ⟨List.mem_append_left _ hfound.1, List.find?_some hfind⟩
    rw [Option.some_or, List.inj_on_of_nodup_map hnodup hother hmem (by simpa using hfound.2)]

end Census

/-- Under a clock that never goes back, restarts included, each day closes at most once and in its
order, and a read of a day that was stored as closed answers with that row. -/
theorem census_days_close_once [DecidableEq Digest] (first second : ℤ) (key : Key) (labels : List (CensusLabel Key))
    (hclock : (first :: second :: labels.flatMap CensusLabel.times).Pairwise (· ≤ ·)) :
    ((Census.create first second key).run localeCompare hash labels).closedDates.Pairwise (· < ·) ∧
      (∀ date ∈ ((Census.create first second key).run localeCompare hash labels).closedDates,
        date < ((Census.create first second key).run localeCompare hash labels).day.date) ∧
      ∀ row ∈ ((Census.create first second key).run localeCompare hash labels).files, row.complete = true →
        ((Census.create first second key).run localeCompare hash labels).readRow localeCompare row.date = some row := by
  obtain ⟨hfirst, hrest⟩ := List.pairwise_cons.mp hclock
  have hcreated : (Census.create first second key : Census Key Digest).Dated second :=
    ⟨List.Pairwise.nil, fun _ h => absurd h List.not_mem_nil, Census.utcDate_mono (hfirst second List.mem_cons_self)⟩
  obtain ⟨later, hdated⟩ := hcreated.run hrest
  exact ⟨hdated.increasing, hdated.closed, fun row hrow hcomplete => hdated.readRow hrow hcomplete⟩

theorem census_days_close_once_two : ((Census.create 0 0 7).run (fun _ _ => 0) Prod.mk twoDays).closedDates.Pairwise (· < ·) :=
  (census_days_close_once 0 0 7 twoDays (by decide)).1

end Days

end Rows

end RecordNode
