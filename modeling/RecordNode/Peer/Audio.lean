import Mathlib.Data.List.Sort
import RecordNode.Fabric.UnixFile
import RecordNode.Foundation.Run

/-! # The audio cache

Audio is read from the local store and, block by block, from the network where a block is
missing. Blocks fetched for playback stay in a cache of bounded size: a read that ends
evicts the least recently used of them until the rest fits. Reads interleave at every
await, and a trim walks the live map while others touch and add entries: between its last
check and the return of its call they may fill the cache again. -/

namespace RecordNode

open Foundation

/-- An entry of the `cached` map, with its place in the map's order of insertion. -/
structure CachedBlock where
  place : ℕ
  cid : String
  size : ℕ
deriving DecidableEq

/-- A call of `read` on a peer with a network. A trim keeps the place its iteration has come to. -/
inductive AudioRead where
  | reading (cid : String) (file : FileRead) (fetching : Bool)
  | trimming (cid : String) (bytes : Option Bytes) (place : ℕ)
  | trimmed (cid : String) (bytes : Option Bytes)
  | returned (cid : String) (bytes : Option Bytes)
  | thrown (cid : String)
deriving DecidableEq

structure AudioSource where
  cached : List CachedBlock
  /-- The place the next insertion gets. -/
  nextPlace : ℕ
  total : ℕ
  reads : List AudioRead
  /-- What reads were given so far: every block in order, from the store or a fetch, and those from a
  fetch; and what the store was told to evict. -/
  uses : List String
  fetched : List String
  evicted : List String
deriving DecidableEq

/-- What can happen between two awaits; `i` is the read that goes on. -/
inductive AudioLabel where
  | call (cid : String)
  | stored (i : ℕ)
  | notStored (i : ℕ)
  | fetched (i : ℕ)
  | notFetched (i : ℕ)
  | failed (i : ℕ)
  | trim (i : ℕ)
  | finish (i : ℕ)

namespace AudioSource

def empty : AudioSource := ⟨[], 1, 0, [], [], [], []⟩

section Operations
variable (s : AudioSource)

def cachedSize (cid : String) : Option ℕ := (s.cached.find? fun b => b.cid = cid).map CachedBlock.size

/-- `delete`, then `set`: the entry moves to the end. -/
def reinsert (cid : String) (size : ℕ) : AudioSource :=
  { s with
    cached := (s.cached.filter fun b => b.cid ≠ cid) ++ [⟨s.nextPlace, cid, size⟩]
    nextPlace := s.nextPlace + 1 }

def touch (cid : String) : AudioSource :=
  match s.cachedSize cid with
  | none => s
  | some size => s.reinsert cid size

def remember (cid : String) (size : ℕ) : AudioSource :=
  match s.cachedSize cid with
  | some _ => s.touch cid
  | none => { s.reinsert cid size with total := s.total + size }

def setRead (i : ℕ) (r : AudioRead) : AudioSource := { s with reads := s.reads.set i r }

/-- One turn of the loop in `trim`, from the place the iteration has come to. -/
def trimTurn (maxBytes i : ℕ) (cid : String) (bytes : Option Bytes) (place : ℕ) : AudioSource :=
  match s.cached.find? fun b => decide (place < b.place) with
  | none => s.setRead i (.trimmed cid bytes)
  | some b =>
    if s.total ≤ maxBytes then s.setRead i (.trimmed cid bytes)
    else
      { s with
        cached := s.cached.filter fun c => c.cid ≠ b.cid
        total := s.total - b.size
        evicted := s.evicted ++ [b.cid]
        reads := s.reads.set i (.trimming cid bytes b.place) }

end Operations

/-- Errors `read_file` takes for an absent file. -/
def readsAsAbsent : FileError → Bool
  | .protocol e => e.code = .invalidShape || e.code = .contentUnavailable
  | .thrown _ => false

variable (K : FileCodecs) (contents : Cid → Option Bytes) (maxBytes : ℕ)

/-- The read goes on with a block, or without. -/
def goOn (s : AudioSource) (i : ℕ) (cid : String) (file : FileRead) (bytes : Option Bytes) : AudioSource :=
  s.setRead i (.reading cid (FileRead.answer K cid none bytes file) false)

def step (s : AudioSource) : AudioLabel → Option AudioSource
  | .call cid => some { s with reads := s.reads ++ [.reading cid (FileRead.start K cid) false] }
  | .stored i =>
    match s.reads[i]? with
    | some (.reading cid (.awaiting isRoot node p) false) =>
      match contents node with
      | none => none
      | some bytes =>
        let s := { s.touch node.format with uses := s.uses ++ [node.format] }
        some (s.goOn K i cid (.awaiting isRoot node p) (some bytes))
    | _ => none
  | .notStored i =>
    match s.reads[i]? with
    | some (.reading cid (.awaiting isRoot node p) false) =>
      some (s.setRead i (.reading cid (.awaiting isRoot node p) true))
    | _ => none
  | .fetched i =>
    match s.reads[i]? with
    | some (.reading cid (.awaiting isRoot node p) true) =>
      match contents node with
      | none => none
      | some bytes =>
        let s := { s.remember node.format bytes.length with
          uses := s.uses ++ [node.format]
          fetched := s.fetched ++ [node.format] }
        some (s.goOn K i cid (.awaiting isRoot node p) (some bytes))
    | _ => none
  | .notFetched i =>
    match s.reads[i]? with
    | some (.reading cid (.awaiting isRoot node p) true) => some (s.goOn K i cid (.awaiting isRoot node p) none)
    | _ => none
  | .failed i =>
    match s.reads[i]? with
    | some (.reading cid (.awaiting _ _ _) _) => some (s.setRead i (.thrown cid))
    | some (.trimming cid _ _) => some (s.setRead i (.thrown cid))
    | _ => none
  | .trim i =>
    match s.reads[i]? with
    | some (.reading cid (.finished (.ok bytes)) _) => some (s.trimTurn maxBytes i cid bytes 0)
    | some (.reading cid (.finished (.error e)) _) =>
      if readsAsAbsent e then some (s.trimTurn maxBytes i cid none 0) else some (s.setRead i (.thrown cid))
    | some (.trimming cid bytes place) => some (s.trimTurn maxBytes i cid bytes place)
    | _ => none
  | .finish i =>
    match s.reads[i]? with
    | some (.trimmed cid bytes) => some (s.setRead i (.returned cid bytes))
    | _ => none

end AudioSource

/-! ## Last uses -/

/-- The last use of `old` comes before a use of `recent`. -/
def UsedSince (uses : List String) (old recent : String) : Prop :=
  ∃ before after, uses = before ++ old :: after ∧ old ∉ after ∧ recent ∈ after

theorem exists_last_use {uses : List String} {cid : String} (h : cid ∈ uses) :
    ∃ before after, uses = before ++ cid :: after ∧ cid ∉ after := by
  induction uses with
  | nil => cases h
  | cons use rest ih =>
    by_cases hrest : cid ∈ rest
    · obtain ⟨before, after, rfl, hafter⟩ := ih hrest
      exact ⟨use :: before, after, rfl, hafter⟩
    · obtain rfl := (List.mem_cons.mp h).resolve_right hrest
      exact ⟨[], rest, rfl, hrest⟩

theorem UsedSince.append {uses : List String} {old recent use : String} (h : UsedSince uses old recent)
    (hne : use ≠ old) : UsedSince (uses ++ [use]) old recent := by
  obtain ⟨before, after, rfl, hold, hrecent⟩ := h
  refine ⟨before, after ++ [use], by simp, ?_, List.mem_append_left _ hrecent⟩
  simpa [hold] using hne.symm

theorem usedSince_last {uses : List String} {old use : String} (h : old ∈ uses) (hne : use ≠ old) :
    UsedSince (uses ++ [use]) old use := by
  obtain ⟨before, after, rfl, hold⟩ := exists_last_use h
  refine ⟨before, after ++ [use], by simp, ?_, by simp⟩
  simpa [hold] using hne.symm

/-! ## The invariant -/

namespace AudioSource

variable {K : FileCodecs} {contents : Cid → Option Bytes} {maxBytes : ℕ} {s t : AudioSource}

/-- The size of the block this text names. -/
def IsSize (contents : Cid → Option Bytes) (cid : String) (size : ℕ) : Prop :=
  ∃ node bytes, node.format = cid ∧ contents node = some bytes ∧ bytes.length = size

/-- The map in its order of insertion, which is the order of last use. -/
structure Ordered (contents : Cid → Option Bytes) (s : AudioSource) : Prop where
  places : s.cached.Pairwise fun b c => b.place < c.place
  placed : ∀ b ∈ s.cached, 0 < b.place ∧ b.place < s.nextPlace
  nextPlace : 0 < s.nextPlace
  distinct : (s.cached.map CachedBlock.cid).Nodup
  used : ∀ b ∈ s.cached, b.cid ∈ s.uses
  recency : s.cached.Pairwise fun b c => UsedSince s.uses b.cid c.cid
  total : s.total = (s.cached.map CachedBlock.size).sum
  sizes : ∀ b ∈ s.cached, IsSize contents b.cid b.size
  tracked : ∀ c ∈ s.fetched, (∃ b ∈ s.cached, b.cid = c) ∨ c ∈ s.evicted
  fetchedCached : ∀ b ∈ s.cached, b.cid ∈ s.fetched
  fetchedEvicted : ∀ c ∈ s.evicted, c ∈ s.fetched

/-- What entries a later map has: old ones, or ones inserted since. -/
structure Later (s t : AudioSource) : Prop where
  nextPlace : s.nextPlace ≤ t.nextPlace
  cached : ∀ b ∈ t.cached, b ∈ s.cached ∨ s.nextPlace ≤ b.place

/-- Bytes handed over are the file's, and no entry lies behind a trim. -/
def ReadSound (K : FileCodecs) (contents : Cid → Option Bytes) (s : AudioSource) : AudioRead → Prop
  | .reading cid file _ => FileRead.Sound K contents (fun _ => True) none cid file
  | .trimming cid bytes place =>
    (∀ b, bytes = some b → IsFile K contents cid b) ∧ place < s.nextPlace ∧ ∀ b ∈ s.cached, place < b.place
  | .trimmed cid bytes => ∀ b, bytes = some b → IsFile K contents cid b
  | .returned cid bytes => ∀ b, bytes = some b → IsFile K contents cid b
  | .thrown _ => True

structure Sound (K : FileCodecs) (contents : Cid → Option Bytes) (s : AudioSource) : Prop where
  ordered : Ordered contents s
  reads : ∀ (i : ℕ) (r : AudioRead), s.reads[i]? = some r → ReadSound K contents s r

theorem Later.refl (s : AudioSource) : Later s s := ⟨le_rfl, fun _ hb => .inl hb⟩

theorem ReadSound.later {r : AudioRead} (h : ReadSound K contents s r) (hl : Later s t) : ReadSound K contents t r := by
  cases r with
  | reading => exact h
  | trimming cid bytes place =>
    obtain ⟨hbytes, hplace, hahead⟩ := h
    refine ⟨hbytes, lt_of_lt_of_le hplace hl.nextPlace, ?_⟩
    intro b hb
    rcases hl.cached b hb with hold | hnew
    · exact hahead b hold
    · exact lt_of_lt_of_le hplace hnew
  | trimmed => exact h
  | returned => exact h
  | thrown => trivial

/-! ## What the operations keep -/

theorem cachedSize_eq_none (s : AudioSource) (cid : String) : s.cachedSize cid = none ↔ ∀ b ∈ s.cached, b.cid ≠ cid := by
  simp [cachedSize]

theorem exists_of_cachedSize {cid : String} {size : ℕ} (h : s.cachedSize cid = some size) :
    ∃ b ∈ s.cached, b.cid = cid ∧ b.size = size := by
  obtain ⟨b, hb, rfl⟩ := Option.map_eq_some_iff.mp h
  exact ⟨b, List.mem_of_find?_eq_some hb, by simpa using List.find?_some hb, rfl⟩

theorem filter_cid_eq_self {l : List CachedBlock} {cid : String} (h : ∀ b ∈ l, b.cid ≠ cid) :
    (l.filter fun b => b.cid ≠ cid) = l := by
  rw [List.filter_eq_self]
  intro b hb
  simpa using h b hb

/-- Of entries under distinct CIDs, the first one's CID is none of the others'. -/
theorem ne_head_cid {b : CachedBlock} {rest : List CachedBlock} (h : ((b :: rest).map CachedBlock.cid).Nodup) :
    ∀ c ∈ rest, c.cid ≠ b.cid := by
  intro c hc heq
  rw [List.map_cons, List.nodup_cons] at h
  exact h.1 (heq ▸ List.mem_map_of_mem hc)

theorem filter_head_cid {b : CachedBlock} {rest : List CachedBlock} (h : ((b :: rest).map CachedBlock.cid).Nodup) :
    ((b :: rest).filter fun c => c.cid ≠ b.cid) = rest := by
  rw [List.filter_cons_of_neg (by simp), filter_cid_eq_self (ne_head_cid h)]

theorem sum_filter_cid {l : List CachedBlock} (hl : (l.map CachedBlock.cid).Nodup) {b : CachedBlock} (hb : b ∈ l) :
    ((l.filter fun c => c.cid ≠ b.cid).map CachedBlock.size).sum + b.size = (l.map CachedBlock.size).sum := by
  induction l with
  | nil => cases hb
  | cons c rest ih =>
    rcases List.mem_cons.mp hb with rfl | hrest
    · rw [filter_head_cid hl, List.map_cons, List.sum_cons]
      omega
    · have hne : c.cid ≠ b.cid := (ne_head_cid hl b hrest).symm
      rw [List.filter_cons_of_pos (by simpa using hne), List.map_cons, List.sum_cons, List.map_cons, List.sum_cons]
      rw [List.map_cons, List.nodup_cons] at hl
      have hsum := ih hl.2 hrest
      omega

/-- Moving a use to the end keeps the order; the total stands for the new entries. -/
theorem Ordered.reinsert (h : Ordered contents s) {cid : String} {size total : ℕ} {fetched : List String}
    (htotal : total = ((s.cached.filter fun b => b.cid ≠ cid).map CachedBlock.size).sum + size)
    (hsize : IsSize contents cid size) (hfetched : ∀ c, c ∈ fetched ↔ c ∈ s.fetched ∨ c = cid) :
    Ordered contents { s.reinsert cid size with total := total, uses := s.uses ++ [cid], fetched := fetched } where
  places := by
    refine List.pairwise_append.mpr ⟨h.places.filter _, List.pairwise_singleton _ _, ?_⟩
    intro b hb c hc
    rw [List.mem_singleton.mp hc]
    exact (h.placed b (List.mem_filter.mp hb).1).2
  placed := by
    intro b hb
    rcases List.mem_append.mp hb with hold | hnew
    · obtain ⟨hpos, hlt⟩ := h.placed b (List.mem_filter.mp hold).1
      exact ⟨hpos, Nat.lt_succ_of_lt hlt⟩
    · rw [List.mem_singleton.mp hnew]
      exact ⟨h.nextPlace, Nat.lt_succ_self _⟩
  nextPlace := Nat.succ_pos _
  distinct := by
    simp only [AudioSource.reinsert, List.map_append, List.map_singleton]
    refine List.nodup_append.mpr ⟨h.distinct.sublist (List.filter_sublist.map _), List.nodup_singleton _, ?_⟩
    intro c hc d hd
    obtain ⟨b, hb, rfl⟩ := List.mem_map.mp hc
    rw [List.mem_singleton.mp hd]
    simpa using (List.mem_filter.mp hb).2
  used := by
    intro b hb
    rcases List.mem_append.mp hb with hold | hnew
    · exact List.mem_append_left _ (h.used b (List.mem_filter.mp hold).1)
    · rw [List.mem_singleton.mp hnew]
      exact List.mem_append_right _ (List.mem_singleton_self _)
  recency := by
    have hne : ∀ b ∈ s.cached.filter fun b => b.cid ≠ cid, cid ≠ b.cid := by
      intro b hb
      simpa using Ne.symm (by simpa using (List.mem_filter.mp hb).2)
    refine List.pairwise_append.mpr ⟨?_, List.pairwise_singleton _ _, ?_⟩
    · refine List.Pairwise.imp_of_mem ?_ (h.recency.filter _)
      intro b c hb _ hused
      exact hused.append (hne b hb)
    · intro b hb c hc
      rw [List.mem_singleton.mp hc]
      exact usedSince_last (h.used b (List.mem_filter.mp hb).1) (hne b hb)
  total := by
    rw [htotal]
    simp [AudioSource.reinsert]
  sizes := by
    intro b hb
    rcases List.mem_append.mp hb with hold | hnew
    · exact h.sizes b (List.mem_filter.mp hold).1
    · rw [List.mem_singleton.mp hnew]
      exact hsize
  tracked := by
    intro c hc
    by_cases hsame : c = cid
    · exact .inl ⟨_, List.mem_append_right _ (List.mem_singleton_self _), hsame.symm⟩
    · rcases h.tracked c (((hfetched c).mp hc).resolve_right hsame) with ⟨b, hb, rfl⟩ | hevicted
      · exact .inl ⟨b, List.mem_append_left _ (List.mem_filter.mpr ⟨hb, by simpa using hsame⟩), rfl⟩
      · exact .inr hevicted
  fetchedCached := by
    intro b hb
    rcases List.mem_append.mp hb with hold | hnew
    · exact (hfetched _).mpr (.inl (h.fetchedCached b (List.mem_filter.mp hold).1))
    · rw [List.mem_singleton.mp hnew]
      exact (hfetched cid).mpr (.inr rfl)
  fetchedEvicted := fun c hc => (hfetched c).mpr (.inl (h.fetchedEvicted c hc))

/-- A use of a block that is not tracked leaves the order as it is. -/
theorem Ordered.usedElsewhere (h : Ordered contents s) {cid : String} (hcid : ∀ b ∈ s.cached, b.cid ≠ cid) :
    Ordered contents { s with uses := s.uses ++ [cid] } where
  places := h.places
  placed := h.placed
  nextPlace := h.nextPlace
  distinct := h.distinct
  used := fun b hb => List.mem_append_left _ (h.used b hb)
  recency := by
    refine List.Pairwise.imp_of_mem ?_ h.recency
    intro b c hb _ hused
    exact hused.append (hcid b hb).symm
  total := h.total
  sizes := h.sizes
  tracked := h.tracked
  fetchedCached := h.fetchedCached
  fetchedEvicted := h.fetchedEvicted

theorem later_reinsert (s : AudioSource) (cid : String) (size total : ℕ) (uses fetched : List String) :
    Later s { s.reinsert cid size with total := total, uses := uses, fetched := fetched } := by
  refine ⟨Nat.le_succ _, ?_⟩
  intro b hb
  rcases List.mem_append.mp hb with hold | hnew
  · exact .inl (List.mem_filter.mp hold).1
  · rw [List.mem_singleton.mp hnew]
    exact .inr le_rfl

theorem touch_cases (s : AudioSource) (cid : String) :
    s.touch cid = s ∧ (∀ b ∈ s.cached, b.cid ≠ cid) ∨ ∃ b ∈ s.cached, b.cid = cid ∧ s.touch cid = s.reinsert cid b.size := by
  unfold AudioSource.touch
  cases h : s.cachedSize cid with
  | none => exact .inl ⟨rfl, (s.cachedSize_eq_none cid).mp h⟩
  | some size =>
    obtain ⟨b, hb, hcid, rfl⟩ := exists_of_cachedSize h
    exact .inr ⟨b, hb, hcid, rfl⟩

/-- A block the store had, whether tracked or not, was used last. -/
theorem Ordered.touch (h : Ordered contents s) (cid : String) :
    Ordered contents { s.touch cid with uses := s.uses ++ [cid] } ∧
      Later s { s.touch cid with uses := s.uses ++ [cid] } := by
  rcases s.touch_cases cid with ⟨heq, hcid⟩ | ⟨b, hb, rfl, heq⟩
  · rw [heq]
    exact ⟨h.usedElsewhere hcid, le_rfl, fun _ hb => .inl hb⟩
  · rw [heq]
    have htotal : s.total = ((s.cached.filter fun c => c.cid ≠ b.cid).map CachedBlock.size).sum + b.size := by
      rw [h.total, sum_filter_cid h.distinct hb]
    have hfetched : ∀ c, c ∈ s.fetched ↔ c ∈ s.fetched ∨ c = b.cid := by
      intro c
      refine ⟨.inl, ?_⟩
      rintro (hc | rfl)
      · exact hc
      · exact h.fetchedCached b hb
    exact ⟨h.reinsert htotal (h.sizes b hb) hfetched, later_reinsert s _ _ _ _ _⟩

/-- A fetched block is tracked from now on, and counted unless it was. -/
theorem Ordered.remember (h : Ordered contents s) {cid : String} {size : ℕ} (hcid : IsSize contents cid size) :
    Ordered contents { s.remember cid size with uses := s.uses ++ [cid], fetched := s.fetched ++ [cid] } ∧
      Later s { s.remember cid size with uses := s.uses ++ [cid], fetched := s.fetched ++ [cid] } := by
  have hfetched : ∀ c, c ∈ s.fetched ++ [cid] ↔ c ∈ s.fetched ∨ c = cid := by
    intro c
    rw [List.mem_append, List.mem_singleton]
  unfold AudioSource.remember
  cases hsize : s.cachedSize cid with
  | none =>
    refine ⟨h.reinsert ?_ hcid hfetched, later_reinsert s _ _ _ _ _⟩
    rw [filter_cid_eq_self ((s.cachedSize_eq_none cid).mp hsize), h.total]
  | some old =>
    obtain ⟨b, hb, rfl, rfl⟩ := exists_of_cachedSize hsize
    have htouch : s.touch b.cid = s.reinsert b.cid b.size := by
      rw [AudioSource.touch, hsize]
    simp only [htouch]
    refine ⟨h.reinsert ?_ (h.sizes b hb) hfetched, later_reinsert s _ _ _ _ _⟩
    change s.total = _
    rw [h.total, sum_filter_cid h.distinct hb]

/-- Dropping an entry with its size keeps the order. -/
theorem Ordered.drop (h : Ordered contents s) {b : CachedBlock} (hb : b ∈ s.cached) (reads : List AudioRead) :
    Ordered contents { s with
      cached := s.cached.filter fun c => c.cid ≠ b.cid
      total := s.total - b.size
      evicted := s.evicted ++ [b.cid]
      reads := reads } where
  places := h.places.filter _
  placed := fun c hc => h.placed c (List.mem_filter.mp hc).1
  nextPlace := h.nextPlace
  distinct := h.distinct.sublist (List.filter_sublist.map _)
  used := fun c hc => h.used c (List.mem_filter.mp hc).1
  recency := h.recency.filter _
  total := by
    have hsum := sum_filter_cid h.distinct hb
    have htotal := h.total
    change s.total - b.size = ((s.cached.filter fun c => c.cid ≠ b.cid).map CachedBlock.size).sum
    omega
  sizes := fun c hc => h.sizes c (List.mem_filter.mp hc).1
  tracked := by
    intro c hc
    rcases h.tracked c hc with ⟨d, hd, rfl⟩ | hevicted
    · by_cases hsame : d.cid = b.cid
      · exact .inr (List.mem_append_right _ (List.mem_singleton.mpr hsame))
      · exact .inl ⟨d, List.mem_filter.mpr ⟨hd, by simpa using hsame⟩, rfl⟩
    · exact .inr (List.mem_append_left _ hevicted)
  fetchedCached := fun c hc => h.fetchedCached c (List.mem_filter.mp hc).1
  fetchedEvicted := by
    intro c hc
    rcases List.mem_append.mp hc with hold | hnew
    · exact h.fetchedEvicted c hold
    · rw [List.mem_singleton.mp hnew]
      exact h.fetchedCached b hb

theorem Ordered.sameCache (h : Ordered contents s) (reads : List AudioRead) : Ordered contents { s with reads := reads } :=
  ⟨h.places, h.placed, h.nextPlace, h.distinct, h.used, h.recency, h.total, h.sizes, h.tracked, h.fetchedCached,
    h.fetchedEvicted⟩

theorem Later.sameCache (h : Later s t) (reads : List AudioRead) : Later s { t with reads := reads } :=
  ⟨h.nextPlace, h.cached⟩

/-! ## Steps -/

theorem Sound.set (h : Sound K contents s) (hordered : Ordered contents t) (hlater : Later s t) {i : ℕ} {r : AudioRead}
    (hreads : t.reads = s.reads.set i r) (hr : ReadSound K contents t r) : Sound K contents t := by
  refine ⟨hordered, ?_⟩
  intro j q hq
  rw [hreads, List.getElem?_set] at hq
  split at hq
  · split at hq
    · obtain rfl := Option.some_inj.mp hq
      exact hr
    · cases hq
  · exact (h.reads j q hq).later hlater

theorem touch_reads (s : AudioSource) (cid : String) : (s.touch cid).reads = s.reads := by
  rcases s.touch_cases cid with ⟨heq, -⟩ | ⟨b, -, -, heq⟩ <;> rw [heq]
  rfl

theorem remember_reads (s : AudioSource) (cid : String) (size : ℕ) : (s.remember cid size).reads = s.reads := by
  unfold AudioSource.remember
  split
  · exact s.touch_reads cid
  · rfl

/-- With everything the iteration has passed gone, the entry it comes to is the first. -/
theorem find?_ahead {l : List CachedBlock} {place : ℕ} (h : ∀ b ∈ l, place < b.place) :
    l.find? (fun b => decide (place < b.place)) = l.head? := by
  cases l with
  | nil => rfl
  | cons b rest => rw [List.find?_cons_of_pos (by simpa using h b List.mem_cons_self), List.head?_cons]

/-- One turn of a trim: it ends with the cache within its bound, or the block used longest ago is
evicted. -/
inductive Turned (s t : AudioSource) (maxBytes i : ℕ) (cid : String) (bytes : Option Bytes) : Prop
  | ended (h : t = s.setRead i (.trimmed cid bytes)) (hfits : s.total ≤ maxBytes)
  | evicted (b : CachedBlock) (rest : List CachedBlock) (hcached : s.cached = b :: rest) (hover : maxBytes < s.total)
      (h : t = { s with
        cached := rest
        total := s.total - b.size
        evicted := s.evicted ++ [b.cid]
        reads := s.reads.set i (.trimming cid bytes b.place) })

theorem Ordered.turn (h : Ordered contents s) (maxBytes i : ℕ) (cid : String) (bytes : Option Bytes) {place : ℕ}
    (hahead : ∀ b ∈ s.cached, place < b.place) :
    Turned s (s.trimTurn maxBytes i cid bytes place) maxBytes i cid bytes := by
  unfold AudioSource.trimTurn
  rw [find?_ahead hahead]
  cases hcached : s.cached with
  | nil =>
    refine .ended rfl ?_
    rw [h.total, hcached]
    exact Nat.zero_le _
  | cons b rest =>
    simp only [List.head?_cons]
    split
    · next hfits => exact .ended rfl hfits
    · next hover =>
      refine .evicted b rest hcached (Nat.lt_of_not_le hover) ?_
      rw [filter_head_cid (hcached ▸ h.distinct)]

theorem Sound.turned (h : Sound K contents s) {i : ℕ} {cid : String} {bytes : Option Bytes}
    (ht : Turned s t maxBytes i cid bytes) (hbytes : ∀ b, bytes = some b → IsFile K contents cid b) :
    Sound K contents t := by
  cases ht with
  | ended heq _ =>
    subst heq
    exact h.set (h.ordered.sameCache _) ((Later.refl s).sameCache _) rfl hbytes
  | evicted b rest hcached _ heq =>
    have hb : b ∈ s.cached := hcached ▸ List.mem_cons_self
    have hplaces := h.ordered.places
    rw [hcached] at hplaces
    have hordered := h.ordered.drop hb (s.reads.set i (.trimming cid bytes b.place))
    rw [hcached, filter_head_cid (hcached ▸ h.ordered.distinct)] at hordered
    subst heq
    refine h.set hordered ⟨le_rfl, ?_⟩ rfl ⟨hbytes, (h.ordered.placed b hb).2, ?_⟩
    · intro c hc
      exact .inl (hcached ▸ List.mem_cons_of_mem b hc)
    · exact (List.pairwise_cons.mp hplaces).1

/-- Past its trim. -/
def isTrimmed : AudioRead → Bool
  | .trimmed _ _ => true
  | _ => false

def isReturned : AudioRead → Bool
  | .returned _ _ => true
  | _ => false

/-- A step is a turn of some trim, a call's return from its trim, or it drops no entry and takes no
call past its trim. -/
inductive Effect (s t : AudioSource) (maxBytes : ℕ) : Prop
  | kept (hevicted : t.evicted = s.evicted) (htracked : ∀ b ∈ s.cached, ∃ c ∈ t.cached, c.cid = b.cid)
      (hreads : ∀ (i : ℕ) (r : AudioRead), t.reads[i]? = some r → isTrimmed r = true ∨ isReturned r = true →
        s.reads[i]? = some r)
  | turned (i : ℕ) (cid : String) (bytes : Option Bytes) (h : Turned s t maxBytes i cid bytes)
  | finished (i : ℕ) (cid : String) (bytes : Option Bytes) (hread : s.reads[i]? = some (.trimmed cid bytes))
      (h : t = s.setRead i (.returned cid bytes))

theorem getElem?_setRead {i j : ℕ} {r q : AudioRead} (h : (s.reads.set i r)[j]? = some q) :
    i = j ∧ r = q ∨ s.reads[j]? = some q := by
  rw [List.getElem?_set] at h
  split at h
  · next hij =>
    split at h
    · exact .inl ⟨hij, Option.some_inj.mp h⟩
    · cases h
  · exact .inr h

/-- A read that goes on without a trim, after whatever it did to the cache. -/
theorem Sound.moved (h : Sound K contents s) {u : AudioSource} (hu : Ordered contents u ∧ Later s u)
    (hreads : u.reads = s.reads) (hevicted : u.evicted = s.evicted)
    (htracked : ∀ b ∈ s.cached, ∃ c ∈ u.cached, c.cid = b.cid) {i : ℕ} {r : AudioRead} (hr : ReadSound K contents u r)
    (hmoved : isTrimmed r = false ∧ isReturned r = false) :
    Sound K contents (u.setRead i r) ∧ Effect s (u.setRead i r) maxBytes := by
  constructor
  · exact h.set (hu.1.sameCache _) (hu.2.sameCache _) (by rw [setRead, hreads]) (hr.later ((Later.refl u).sameCache _))
  · refine .kept hevicted htracked ?_
    intro j q hq hdone
    rw [setRead, hreads, List.getElem?_set] at hq
    split at hq
    · split at hq
      · obtain rfl := Option.some_inj.mp hq
        rw [hmoved.1, hmoved.2] at hdone
        rcases hdone with hdone | hdone <;> cases hdone
      · cases hq
    · exact hq

theorem tracked_reinsert {cid : String} {size : ℕ} :
    ∀ b ∈ s.cached, ∃ c ∈ (s.reinsert cid size).cached, c.cid = b.cid := by
  intro b hb
  by_cases hsame : b.cid = cid
  · exact ⟨_, List.mem_append_right _ (List.mem_singleton_self _), hsame.symm⟩
  · exact ⟨b, List.mem_append_left _ (List.mem_filter.mpr ⟨hb, by simpa using hsame⟩), rfl⟩

theorem tracked_touch (s : AudioSource) (cid : String) : ∀ b ∈ s.cached, ∃ c ∈ (s.touch cid).cached, c.cid = b.cid := by
  rcases s.touch_cases cid with ⟨heq, -⟩ | ⟨b, -, -, heq⟩ <;> rw [heq]
  · exact fun b hb => ⟨b, hb, rfl⟩
  · exact tracked_reinsert

theorem tracked_remember (s : AudioSource) (cid : String) (size : ℕ) :
    ∀ b ∈ s.cached, ∃ c ∈ (s.remember cid size).cached, c.cid = b.cid := by
  unfold AudioSource.remember
  split
  · exact s.tracked_touch cid
  · exact tracked_reinsert

theorem remembered (s : AudioSource) (cid : String) (size : ℕ) : ∃ b ∈ (s.remember cid size).cached, b.cid = cid := by
  unfold AudioSource.remember
  cases h : s.cachedSize cid with
  | none => exact ⟨_, List.mem_append_right _ (List.mem_singleton_self _), rfl⟩
  | some old =>
    obtain ⟨b, hb, hcid, -⟩ := exists_of_cachedSize h
    obtain ⟨c, hc, hsame⟩ := s.tracked_touch cid b hb
    exact ⟨c, hc, hsame.trans hcid⟩

theorem touch_fetched (s : AudioSource) (cid : String) : (s.touch cid).fetched = s.fetched := by
  rcases s.touch_cases cid with ⟨heq, -⟩ | ⟨b, -, -, heq⟩ <;> rw [heq]
  rfl

theorem trimTurn_fetched (s : AudioSource) (i : ℕ) (cid : String) (bytes : Option Bytes) (place : ℕ) :
    (s.trimTurn maxBytes i cid bytes place).fetched = s.fetched := by
  unfold AudioSource.trimTurn
  split
  · rfl
  · split <;> rfl

/-- What each step is, with what it needs. -/
inductive Stepped (K : FileCodecs) (contents : Cid → Option Bytes) (maxBytes : ℕ) (s : AudioSource) :
    AudioLabel → AudioSource → Prop
  | call (cid : String) :
    Stepped K contents maxBytes s (.call cid) { s with reads := s.reads ++ [.reading cid (FileRead.start K cid) false] }
  | stored {i : ℕ} {cid : String} {isRoot : Bool} {node : Cid} {p : FileProgress} {bytes : Bytes}
    (hread : s.reads[i]? = some (.reading cid (.awaiting isRoot node p) false)) (hbytes : contents node = some bytes) :
    Stepped K contents maxBytes s (.stored i)
      (goOn K { s.touch node.format with uses := s.uses ++ [node.format] } i cid (.awaiting isRoot node p) (some bytes))
  | notStored {i : ℕ} {cid : String} {isRoot : Bool} {node : Cid} {p : FileProgress}
    (hread : s.reads[i]? = some (.reading cid (.awaiting isRoot node p) false)) :
    Stepped K contents maxBytes s (.notStored i) (s.setRead i (.reading cid (.awaiting isRoot node p) true))
  | fetched {i : ℕ} {cid : String} {isRoot : Bool} {node : Cid} {p : FileProgress} {bytes : Bytes}
    (hread : s.reads[i]? = some (.reading cid (.awaiting isRoot node p) true)) (hbytes : contents node = some bytes) :
    Stepped K contents maxBytes s (.fetched i)
      (goOn K { s.remember node.format bytes.length with
        uses := s.uses ++ [node.format]
        fetched := s.fetched ++ [node.format] } i cid (.awaiting isRoot node p) (some bytes))
  | notFetched {i : ℕ} {cid : String} {isRoot : Bool} {node : Cid} {p : FileProgress}
    (hread : s.reads[i]? = some (.reading cid (.awaiting isRoot node p) true)) :
    Stepped K contents maxBytes s (.notFetched i) (s.goOn K i cid (.awaiting isRoot node p) none)
  | thrown {l : AudioLabel} (i : ℕ) (cid : String) : Stepped K contents maxBytes s l (s.setRead i (.thrown cid))
  | firstTurn {i : ℕ} {cid : String} {bytes : Option Bytes} {fetching : Bool}
    (hread : s.reads[i]? = some (.reading cid (.finished (.ok bytes)) fetching)) :
    Stepped K contents maxBytes s (.trim i) (s.trimTurn maxBytes i cid bytes 0)
  | absentTurn (i : ℕ) (cid : String) : Stepped K contents maxBytes s (.trim i) (s.trimTurn maxBytes i cid none 0)
  | nextTurn {i : ℕ} {cid : String} {bytes : Option Bytes} {place : ℕ}
    (hread : s.reads[i]? = some (.trimming cid bytes place)) :
    Stepped K contents maxBytes s (.trim i) (s.trimTurn maxBytes i cid bytes place)
  | finish {i : ℕ} {cid : String} {bytes : Option Bytes} (hread : s.reads[i]? = some (.trimmed cid bytes)) :
    Stepped K contents maxBytes s (.finish i) (s.setRead i (.returned cid bytes))

theorem stepped {l : AudioLabel} (ht : step K contents maxBytes s l = some t) : Stepped K contents maxBytes s l t := by
  cases l with
  | call cid => exact Option.some_inj.mp ht ▸ .call cid
  | stored i =>
    simp only [AudioSource.step] at ht
    split at ht
    · next cid isRoot node p hread =>
      split at ht
      · cases ht
      · next bytes hbytes => exact Option.some_inj.mp ht ▸ .stored hread hbytes
    · cases ht
  | notStored i =>
    simp only [AudioSource.step] at ht
    split at ht
    · next cid isRoot node p hread => exact Option.some_inj.mp ht ▸ .notStored hread
    · cases ht
  | fetched i =>
    simp only [AudioSource.step] at ht
    split at ht
    · next cid isRoot node p hread =>
      split at ht
      · cases ht
      · next bytes hbytes => exact Option.some_inj.mp ht ▸ .fetched hread hbytes
    · cases ht
  | notFetched i =>
    simp only [AudioSource.step] at ht
    split at ht
    · next cid isRoot node p hread => exact Option.some_inj.mp ht ▸ .notFetched hread
    · cases ht
  | failed i =>
    simp only [AudioSource.step] at ht
    split at ht
    · next cid _ _ _ _ _ => exact Option.some_inj.mp ht ▸ .thrown i cid
    · next cid _ _ _ => exact Option.some_inj.mp ht ▸ .thrown i cid
    · cases ht
  | trim i =>
    simp only [AudioSource.step] at ht
    split at ht
    · next cid bytes fetching hread => exact Option.some_inj.mp ht ▸ .firstTurn hread
    · next cid e fetching hread =>
      split at ht
      · exact Option.some_inj.mp ht ▸ .absentTurn i cid
      · exact Option.some_inj.mp ht ▸ .thrown i cid
    · next cid bytes place hread => exact Option.some_inj.mp ht ▸ .nextTurn hread
    · cases ht
  | finish i =>
    simp only [AudioSource.step] at ht
    split at ht
    · next cid bytes hread => exact Option.some_inj.mp ht ▸ .finish hread
    · cases ht

/-- What a step fetches is tracked then. -/
theorem step_fetched {l : AudioLabel} (ht : step K contents maxBytes s l = some t) :
    t.fetched = s.fetched ∨ ∃ c, t.fetched = s.fetched ++ [c] ∧ ∃ b ∈ t.cached, b.cid = c := by
  cases stepped ht with
  | @fetched i cid isRoot node p bytes _ _ => exact .inr ⟨node.format, rfl, s.remembered node.format bytes.length⟩
  | stored => exact .inl (s.touch_fetched _)
  | firstTurn | absentTurn | nextTurn => exact .inl (s.trimTurn_fetched _ _ _ _)
  | call | notStored | notFetched | thrown | finish => exact .inl rfl

theorem evicted_touch (s : AudioSource) (cid : String) : (s.touch cid).evicted = s.evicted := by
  rcases s.touch_cases cid with ⟨heq, -⟩ | ⟨b, -, -, heq⟩ <;> rw [heq]
  rfl

theorem evicted_remember (s : AudioSource) (cid : String) (size : ℕ) : (s.remember cid size).evicted = s.evicted := by
  unfold AudioSource.remember
  split
  · exact s.evicted_touch cid
  · rfl

theorem sound_fileOf {cid : String} {bytes : Option Bytes}
    (h : FileRead.Sound K contents (fun _ => True) none cid (.finished (.ok bytes))) :
    ∀ b, bytes = some b → IsFile K contents cid b := by
  rintro b rfl
  cases h with
  | file hfile _ => exact (hfile b).mpr rfl

theorem Sound.step (h : Sound K contents s) {l : AudioLabel} (ht : step K contents maxBytes s l = some t) :
    Sound K contents t ∧ Effect s t maxBytes := by
  have hsame : Ordered contents s ∧ Later s s := ⟨h.ordered, .refl s⟩
  have htracked : ∀ b ∈ s.cached, ∃ c ∈ s.cached, c.cid = b.cid := fun b hb => ⟨b, hb, rfl⟩
  cases stepped ht with
  | call cid =>
    refine ⟨⟨h.ordered.sameCache _, ?_⟩, .kept rfl htracked ?_⟩
    · intro i r hr
      rw [List.getElem?_append] at hr
      split at hr
      · exact (h.reads i r hr).later ((Later.refl s).sameCache _)
      · rw [List.mem_singleton.mp (List.mem_of_getElem? hr)]
        exact FileRead.sound_start
    · intro i r hr hdone
      rw [List.getElem?_append] at hr
      split at hr
      · exact hr
      · rw [List.mem_singleton.mp (List.mem_of_getElem? hr)] at hdone
        rcases hdone with hdone | hdone <;> cases hdone
  | @stored i cid isRoot node p bytes hread hbytes =>
    have hfile : FileRead.Sound K contents (fun _ => True) none cid (.awaiting isRoot node p) := h.reads i _ hread
    have hanswer := hfile.answer (.inr ⟨Option.some_ne_none bytes, hbytes.symm⟩)
    exact h.moved (h.ordered.touch node.format) (touch_reads s _) (evicted_touch s _) (tracked_touch s _) hanswer ⟨rfl, rfl⟩
  | @notStored i cid isRoot node p hread =>
    have hfile : FileRead.Sound K contents (fun _ => True) none cid (.awaiting isRoot node p) := h.reads i _ hread
    exact h.moved hsame rfl rfl htracked hfile ⟨rfl, rfl⟩
  | @fetched i cid isRoot node p bytes hread hbytes =>
    have hfile : FileRead.Sound K contents (fun _ => True) none cid (.awaiting isRoot node p) := h.reads i _ hread
    have hanswer := hfile.answer (.inr ⟨Option.some_ne_none bytes, hbytes.symm⟩)
    have hsize : IsSize contents node.format bytes.length := ⟨node, bytes, rfl, hbytes, rfl⟩
    exact h.moved (h.ordered.remember hsize) (remember_reads s _ _) (evicted_remember s _ _) (tracked_remember s _ _)
      hanswer ⟨rfl, rfl⟩
  | @notFetched i cid isRoot node p hread =>
    have hfile : FileRead.Sound K contents (fun _ => True) none cid (.awaiting isRoot node p) := h.reads i _ hread
    exact h.moved hsame rfl rfl htracked (hfile.answer (.inl ⟨rfl, trivial⟩)) ⟨rfl, rfl⟩
  | thrown i cid => exact h.moved hsame rfl rfl htracked trivial ⟨rfl, rfl⟩
  | @firstTurn i cid bytes _ hread =>
    have hturn := h.ordered.turn maxBytes i cid bytes fun b hb => (h.ordered.placed b hb).1
    exact ⟨h.turned hturn (sound_fileOf (h.reads i _ hread)), .turned i cid bytes hturn⟩
  | absentTurn i cid =>
    have hturn := h.ordered.turn maxBytes i cid none fun b hb => (h.ordered.placed b hb).1
    exact ⟨h.turned hturn (fun b hb => absurd hb (Option.some_ne_none b).symm), .turned i cid none hturn⟩
  | @nextTurn i cid bytes place hread =>
    obtain ⟨hbytes, -, hahead⟩ := h.reads i _ hread
    have hturn := h.ordered.turn maxBytes i cid bytes hahead
    exact ⟨h.turned hturn hbytes, .turned i cid bytes hturn⟩
  | @finish i cid bytes hread =>
    have hset : Sound K contents (s.setRead i (.returned cid bytes)) :=
      h.set (h.ordered.sameCache _) ((Later.refl s).sameCache _) rfl (h.reads i _ hread)
    exact ⟨hset, .finished i cid bytes hread rfl⟩

theorem sound_empty : Sound K contents empty where
  ordered :=
    { places := .nil
      placed := fun b hb => absurd hb List.not_mem_nil
      nextPlace := Nat.one_pos
      distinct := List.nodup_nil
      used := fun b hb => absurd hb List.not_mem_nil
      recency := .nil
      total := rfl
      sizes := fun b hb => absurd hb List.not_mem_nil
      tracked := fun c hc => absurd hc List.not_mem_nil
      fetchedCached := fun b hb => absurd hb List.not_mem_nil
      fetchedEvicted := fun c hc => absurd hc List.not_mem_nil }
  reads := by
    intro i r hr
    cases hr

theorem sound_run (h : Run (step K contents maxBytes) (· = empty) anyLabel s) : Sound K contents s := by
  refine h.invariant ?_ fun _ _ _ hsound _ ht => (hsound.step ht).1
  rintro _ rfl
  exact sound_empty

end AudioSource

/-- However reads interleave: what is fetched is tracked from then on, once and with its size, until it is
evicted, and nothing else is; the count is the size of what is tracked; a read returns the file's bytes,
and only past a check of its own trim that met the count within the bound; an eviction takes one tracked
block, while the count is over the bound, and every other has been read since; no block leaves the map
otherwise. -/
theorem audio_cache (K : FileCodecs) (contents : Cid → Option Bytes) (maxBytes : ℕ) {s : AudioSource}
    (h : Run (AudioSource.step K contents maxBytes) (· = AudioSource.empty) anyLabel s) :
    s.total = (s.cached.map CachedBlock.size).sum ∧ (s.cached.map CachedBlock.cid).Nodup ∧
      (∀ b ∈ s.cached, b.cid ∈ s.fetched ∧ AudioSource.IsSize contents b.cid b.size) ∧
      (∀ c ∈ s.fetched, (∃ b ∈ s.cached, b.cid = c) ∨ c ∈ s.evicted) ∧ (∀ c ∈ s.evicted, c ∈ s.fetched) ∧
      (∀ (i : ℕ) cid bytes, s.reads[i]? = some (.returned cid (some bytes)) → FileBytes K contents [cid] bytes) ∧
      ∀ l t, AudioSource.step K contents maxBytes s l = some t →
        (∀ (i : ℕ) cid bytes, t.reads[i]? = some (.returned cid bytes) →
          s.reads[i]? = some (.returned cid bytes) ∨ s.reads[i]? = some (.trimmed cid bytes)) ∧
        (∀ (i : ℕ) cid bytes, t.reads[i]? = some (.trimmed cid bytes) →
          s.reads[i]? = some (.trimmed cid bytes) ∨ s.total ≤ maxBytes) ∧
        (∀ c, t.fetched = s.fetched ++ [c] → ∃ b ∈ t.cached, b.cid = c) ∧
        (t.evicted = s.evicted ∧ (∀ b ∈ s.cached, ∃ c ∈ t.cached, c.cid = b.cid) ∨
          ∃ c, t.evicted = s.evicted ++ [c] ∧ maxBytes < s.total ∧ (∃ b ∈ s.cached, b.cid = c) ∧ (∀ b ∈ t.cached, b.cid ≠ c) ∧
            ∀ b ∈ s.cached, b.cid = c ∨ UsedSince s.uses c b.cid ∧ b ∈ t.cached) := by
  have hs := AudioSource.sound_run h
  have ho := hs.ordered
  refine ⟨ho.total, ho.distinct, fun b hb => ⟨ho.fetchedCached b hb, ho.sizes b hb⟩, ho.tracked, ho.fetchedEvicted, ?_, ?_⟩
  · intro i cid bytes hread
    exact isFile_iff.mp (hs.reads i _ hread bytes rfl)
  · intro l t ht
    have hfetched : ∀ c, t.fetched = s.fetched ++ [c] → ∃ b ∈ t.cached, b.cid = c := by
      intro c hc
      rcases AudioSource.step_fetched ht with heq | ⟨d, hd, htracked⟩
      · rw [heq] at hc
        exact absurd hc (by simp)
      · rw [hd] at hc
        obtain rfl : d = c := by simpa using hc
        exact htracked
    cases (hs.step ht).2 with
    | kept hevicted htracked hreads =>
      refine ⟨?_, ?_, hfetched, .inl ⟨hevicted, htracked⟩⟩
      · exact fun i cid bytes hread => .inl (hreads i _ hread (.inr rfl))
      · exact fun i cid bytes hread => .inl (hreads i _ hread (.inl rfl))
    | finished i cid bytes hread heq =>
      subst heq
      refine ⟨?_, ?_, hfetched, .inl ⟨rfl, fun b hb => ⟨b, hb, rfl⟩⟩⟩
      · intro j other otherBytes hother
        rcases AudioSource.getElem?_setRead hother with ⟨rfl, heq⟩ | hold
        · cases heq
          exact .inr hread
        · exact .inl hold
      · intro j other otherBytes hother
        rcases AudioSource.getElem?_setRead hother with ⟨-, heq⟩ | hold
        · cases heq
        · exact .inl hold
    | turned i cid bytes hturn =>
      cases hturn with
      | ended heq hfits =>
        subst heq
        refine ⟨?_, fun _ _ _ _ => .inr hfits, hfetched, .inl ⟨rfl, fun b hb => ⟨b, hb, rfl⟩⟩⟩
        intro j other otherBytes hother
        rcases AudioSource.getElem?_setRead hother with ⟨-, heq⟩ | hold
        · cases heq
        · exact .inl hold
      | evicted b rest hcached hover heq =>
        subst heq
        have hfirst : b ∈ s.cached := hcached ▸ List.mem_cons_self
        have hdistinct := ho.distinct
        rw [hcached, List.map_cons, List.nodup_cons] at hdistinct
        refine ⟨?_, ?_, hfetched, .inr ⟨b.cid, rfl, hover, ⟨b, hfirst, rfl⟩, ?_, ?_⟩⟩
        · intro j other otherBytes hother
          rcases AudioSource.getElem?_setRead hother with ⟨-, heq⟩ | hold
          · cases heq
          · exact .inl hold
        · intro j other otherBytes hother
          rcases AudioSource.getElem?_setRead hother with ⟨-, heq⟩ | hold
          · cases heq
          · exact .inl hold
        · exact fun c hc hsame => hdistinct.1 (hsame ▸ List.mem_map_of_mem hc)
        · have hrecency := ho.recency
          rw [hcached] at hrecency ⊢
          intro c hc
          rcases List.mem_cons.mp hc with rfl | hrest
          · exact .inl rfl
          · exact .inr ⟨(List.pairwise_cons.mp hrecency).1 c hrest, hrest⟩

namespace AudioSample

def node : String := (Cid.v1 dagPbCode [0]).format
def left : String := (Cid.v1 rawCode [1]).format
def right : String := (Cid.v1 rawCode [2]).format

/-- A file of a node and two leaves has been fetched, and its left leaf read again on its own, before
the trim of two bytes: it took the node and the right leaf. -/
def evictedRight : AudioSource where
  cached := [⟨4, left, 2⟩]
  nextPlace := 5
  total := 2
  reads := [.returned "node" (some [10, 11, 12]), .reading "left" (.finished (.ok (some [10, 11]))) false]
  uses := [node, left, right, left]
  fetched := [node, left, right]
  evicted := [node, right]

theorem run_evictedRight : runLabels (AudioSource.step FileSample.codecs FileSample.blocks 2) .empty
    [.call "node", .notStored 0, .fetched 0, .notStored 0, .fetched 0, .notStored 0, .fetched 0, .call "left", .stored 1,
      .trim 0, .trim 0, .trim 0, .finish 0] = some evictedRight := by decide +kernel

end AudioSample

theorem audio_cache_evictedRight :
    let s := AudioSample.evictedRight
    s.total = (s.cached.map CachedBlock.size).sum ∧ (s.cached.map CachedBlock.cid).Nodup ∧
      (∀ b ∈ s.cached, b.cid ∈ s.fetched ∧ AudioSource.IsSize FileSample.blocks b.cid b.size) ∧
      (∀ c ∈ s.fetched, (∃ b ∈ s.cached, b.cid = c) ∨ c ∈ s.evicted) ∧ (∀ c ∈ s.evicted, c ∈ s.fetched) ∧
      (∀ (i : ℕ) cid bytes, s.reads[i]? = some (.returned cid (some bytes)) →
        FileBytes FileSample.codecs FileSample.blocks [cid] bytes) ∧
      ∀ l t, AudioSource.step FileSample.codecs FileSample.blocks 2 s l = some t →
        (∀ (i : ℕ) cid bytes, t.reads[i]? = some (.returned cid bytes) →
          s.reads[i]? = some (.returned cid bytes) ∨ s.reads[i]? = some (.trimmed cid bytes)) ∧
        (∀ (i : ℕ) cid bytes, t.reads[i]? = some (.trimmed cid bytes) →
          s.reads[i]? = some (.trimmed cid bytes) ∨ s.total ≤ 2) ∧
        (∀ c, t.fetched = s.fetched ++ [c] → ∃ b ∈ t.cached, b.cid = c) ∧
        (t.evicted = s.evicted ∧ (∀ b ∈ s.cached, ∃ c ∈ t.cached, c.cid = b.cid) ∨
          ∃ c, t.evicted = s.evicted ++ [c] ∧ 2 < s.total ∧ (∃ b ∈ s.cached, b.cid = c) ∧ (∀ b ∈ t.cached, b.cid ≠ c) ∧
            ∀ b ∈ s.cached, b.cid = c ∨ UsedSince s.uses c b.cid ∧ b ∈ t.cached) :=
  audio_cache FileSample.codecs FileSample.blocks 2
    (.of_runLabels (.start rfl) (fun _ _ _ => trivial) AudioSample.run_evictedRight)

end RecordNode
