import RecordNode.Entry.Types
import RecordNode.Foundation.OrderedMap
import RecordNode.Foundation.Run
import RecordNode.Foundation.WorkerPool

/-! # Fetching content

The payloads of merged entries come after the merge: a fetch asks for each one that is not
stored, several at a time, re-indexes those that arrive, and keeps the others in the library's
waiting map, from which a retry hands them over again. Fetches run beside each other, also
for one library, and share its map. -/

namespace RecordNode

open Foundation

/-- The content of a track PUT. -/
def contentOf (e : VerifiedEntry) : Option String :=
  match e.operation with
  | .track value _ => some value.content
  | _ => none

/-- One call of `fetch_all`. -/
structure FetchJob where
  library : String
  /-- The waiting map it writes to. -/
  waiting : ℕ
  entries : List VerifiedEntry
  pool : WorkerPool VerifiedEntry
  arrived : List VerifiedEntry
  settled : Bool

abbrev WaitingMap := OrderedMap Hash VerifiedEntry

structure ContentFetcher where
  /-- Every waiting map made, and the one each library has now. -/
  maps : List WaitingMap
  missing : OrderedMap String ℕ
  jobs : List FetchJob
  /-- The contents that were stored when asked for, or came. -/
  seen : List String
  reindexed : List (String × VerifiedEntry)
  /-- What callers handed over for a library since it was last forgotten. -/
  handed : List (String × VerifiedEntry)

namespace ContentFetcher

inductive Label where
  | fetch (library : String) (entries : List VerifiedEntry)
  | retryMissing (library : String)
  /-- An item of a job is through: its content is stored, or `get_block` gave it, or did not. -/
  | item (job k : ℕ) (stored got : Bool)
  /-- The store or `get_block` throws. -/
  | throws (job k : ℕ)
  /-- The batch is through; the library is open or not. -/
  | settle (job : ℕ) (isOpen : Bool)
  | forget (library : String)

def create : ContentFetcher := ⟨[], .empty, [], [], [], []⟩

/-- The library's waiting map, a new one if it has none. -/
def withMap (s : ContentFetcher) (library : String) : ContentFetcher × ℕ :=
  match s.missing.get library with
  | some id => (s, id)
  | none => ({ s with maps := s.maps ++ [.empty], missing := s.missing.set library s.maps.length }, s.maps.length)

def fetch (limit : ℕ) (s : ContentFetcher) (library : String) (entries : List VerifiedEntry) : ContentFetcher :=
  let opened := s.withMap library
  { opened.1 with jobs := s.jobs ++ [⟨library, opened.2, entries, .start limit entries, [], false⟩] }

/-- The entries of a library that wait. -/
def waitingFor (s : ContentFetcher) (library : String) : List VerifiedEntry :=
  (((s.missing.get library).bind fun id => s.maps[id]?).map OrderedMap.values).getD []

/-- The end of one item of a job. -/
def judge (s : ContentFetcher) (job : FetchJob) (e : VerifiedEntry) (stored got : Bool) : ContentFetcher × FetchJob :=
  match contentOf e with
  | none => (s, job)
  | some content =>
    if stored then ({ s with seen := s.seen ++ [content] }, job)
    else if got then ({ s with seen := s.seen ++ [content] }, { job with arrived := job.arrived ++ [e] })
    else ({ s with maps := s.maps.modify job.waiting fun map => map.set e.hash e }, job)

def step (limit : ℕ) (s : ContentFetcher) : Label → Option ContentFetcher
  | .fetch library entries =>
    some { s.fetch limit library entries with handed := s.handed ++ entries.map (library, ·) }
  | .retryMissing library =>
    some (if s.waitingFor library = [] then s else s.fetch limit library (s.waitingFor library))
  | .item j k stored got =>
    match s.jobs[j]? with
    | none => none
    | some job =>
      match job.pool.running[k]?, job.pool.finish k with
      | some e, some pool =>
        let judged := s.judge { job with pool := pool } e stored got
        some { judged.1 with jobs := s.jobs.set j judged.2 }
      | _, _ => none
  | .throws j k =>
    match s.jobs[j]? with
    | none => none
    | some job => (job.pool.throws k).map fun pool => { s with jobs := s.jobs.set j { job with pool := pool } }
  | .settle j isOpen =>
    match s.jobs[j]? with
    | none => none
    | some job =>
      if job.pool.running = [] ∧ job.pool.thrown = [] ∧ job.settled = false then
        some { s with
          jobs := s.jobs.set j { job with settled := true }
          maps := s.maps.modify job.waiting fun map => job.arrived.foldl (fun map e => map.delete e.hash) map
          reindexed := if job.arrived ≠ [] ∧ isOpen then s.reindexed ++ job.arrived.map (job.library, ·) else s.reindexed }
      else none
  | .forget library =>
    some { s with missing := s.missing.delete library, handed := s.handed.filter fun p => p.1 ≠ library }

/-- The content of the entry was stored when asked for, or came. -/
def Came (s : ContentFetcher) (e : VerifiedEntry) : Prop := ∃ content ∈ s.seen, contentOf e = some content

def Answered (s : ContentFetcher) (h : Hash) : Prop := ∃ e, e.hash = h ∧ s.Came e

/-- The entry has no content, or its content came, or it waits in the map. -/
def Kept (s : ContentFetcher) (id : ℕ) (e : VerifiedEntry) : Prop :=
  contentOf e ≠ none → s.Answered e.hash ∨ ∃ (map : WaitingMap) (waiting : VerifiedEntry), s.maps[id]? = some map ∧ map.get e.hash = some waiting

/-- Nothing seen is lost, and what leaves a waiting map was answered. -/
structure Grows (s t : ContentFetcher) : Prop where
  seen : s.seen ⊆ t.seen
  maps : ∀ (id : ℕ) (map : WaitingMap), s.maps[id]? = some map → ∃ map' : WaitingMap, t.maps[id]? = some map' ∧
    ∀ h e, map.get h = some e → t.Answered h ∨ ∃ e', map'.get h = some e'

/-- The waiting maps of a later state hold nothing but what they held and what the predicate lets in. -/
def Takes (s t : ContentFetcher) (p : ℕ → VerifiedEntry → Prop) : Prop :=
  ∀ (id : ℕ) (map' : WaitingMap), t.maps[id]? = some map' → ∀ h e, map'.get h = some e →
    (∃ map : WaitingMap, s.maps[id]? = some map ∧ map.get h = some e) ∨ p id e ∧ e.hash = h

variable {limit : ℕ} {s t u : ContentFetcher} {j k : ℕ} {job new : FetchJob} {e : VerifiedEntry} {library : String}

theorem Grows.came (hg : Grows s t) (h : s.Came e) : t.Came e := by
  obtain ⟨content, hseen, hcontent⟩ := h
  exact ⟨content, hg.seen hseen, hcontent⟩

theorem Grows.answered (hg : Grows s t) {h : Hash} (ha : s.Answered h) : t.Answered h := by
  obtain ⟨e, hhash, hcame⟩ := ha
  exact ⟨e, hhash, hg.came hcame⟩

theorem Grows.kept (hg : Grows s t) {id : ℕ} (h : s.Kept id e) : t.Kept id e := by
  intro hcontent
  obtain hanswered | ⟨map, waiting, hmap, hget⟩ := h hcontent
  · exact .inl (hg.answered hanswered)
  · obtain ⟨map', hmap', hholds⟩ := hg.maps id map hmap
    obtain hanswered | ⟨e', he'⟩ := hholds e.hash waiting hget
    · exact .inl hanswered
    · exact .inr ⟨map', e', hmap', he'⟩

/-- The fetcher's bookkeeping is in order. -/
structure Sound (limit : ℕ) (s : ContentFetcher) : Prop where
  works : ∀ job ∈ s.jobs, job.pool.Works limit job.entries
  mapOf : ∀ job ∈ s.jobs, job.waiting < s.maps.length
  opened : ∀ library id, s.missing.get library = some id → id < s.maps.length
  apart : ∀ library other id, s.missing.get library = some id → s.missing.get other = some id → library = other
  keyed : ∀ (id : ℕ) (map : WaitingMap), s.maps[id]? = some map → ∀ h e, map.get h = some e → e.hash = h
  came : ∀ job ∈ s.jobs, ∀ e ∈ job.arrived, s.Came e
  finished : ∀ job ∈ s.jobs, ∀ e ∈ job.pool.finished, s.Kept job.waiting e
  handed : ∀ p ∈ s.handed, ∃ job ∈ s.jobs, job.library = p.1 ∧ s.missing.get p.1 = some job.waiting ∧ p.2 ∈ job.entries
  owned : ∀ job ∈ s.jobs, ∀ library, s.missing.get library = some job.waiting → ∀ e ∈ job.entries, (library, e) ∈ s.handed
  waits : ∀ (library : String) (id : ℕ) (map : WaitingMap), s.missing.get library = some id → s.maps[id]? = some map →
    ∀ h e, map.get h = some e → (library, e) ∈ s.handed
  reindexed : ∀ p ∈ s.reindexed, s.Came p.2

theorem sound_create (limit : ℕ) : Sound limit create := by
  constructor
  all_goals simp [create]

/-- One job goes on: the others stay, and what its maps take in is its own. -/
theorem Sound.advance (h : Sound limit s) (hg : Grows s t) (hj : s.jobs[j]? = some job) (hjobs : t.jobs = s.jobs.set j new)
    (hmissing : t.missing = s.missing) (hhanded : t.handed = s.handed) (hlength : t.maps.length = s.maps.length)
    (htakes : Takes s t fun id e => id = job.waiting ∧ e ∈ job.entries)
    (hlibrary : new.library = job.library) (hwaiting : new.waiting = job.waiting) (hentries : new.entries = job.entries)
    (hworks : new.pool.Works limit new.entries) (hcame : ∀ e ∈ new.arrived, t.Came e)
    (hfinished : ∀ e ∈ new.pool.finished, t.Kept new.waiting e) (hreindexed : ∀ p ∈ t.reindexed, t.Came p.2) : Sound limit t := by
  have hmem : job ∈ s.jobs := List.mem_of_getElem? hj
  have hcases : ∀ other ∈ t.jobs, other ∈ s.jobs ∨ other = new := fun other ho => List.mem_or_eq_of_mem_set (hjobs ▸ ho)
  constructor
  · intro other ho
    obtain ho | rfl := hcases other ho
    · exact h.works other ho
    · exact hworks
  · intro other ho
    rw [hlength]
    obtain ho | rfl := hcases other ho
    · exact h.mapOf other ho
    · exact hwaiting ▸ h.mapOf job hmem
  · rw [hmissing, hlength]
    exact h.opened
  · rw [hmissing]
    exact h.apart
  · intro id map' hmap' hash e hget
    obtain ⟨map, hmap, hget⟩ | ⟨-, hhash⟩ := htakes id map' hmap' hash e hget
    · exact h.keyed id map hmap hash e hget
    · exact hhash
  · intro other ho
    obtain ho | rfl := hcases other ho
    · exact fun e he => hg.came (h.came other ho e he)
    · exact hcame
  · intro other ho
    obtain ho | rfl := hcases other ho
    · exact fun e he => hg.kept (h.finished other ho e he)
    · exact hfinished
  · rw [hhanded, hmissing, hjobs]
    intro p hp
    obtain ⟨other, ho, hlib, hmap, hentry⟩ := h.handed p hp
    obtain ⟨i, hi⟩ := List.getElem?_of_mem ho
    by_cases hij : i = j
    · subst hij
      obtain rfl := Option.some_inj.mp (hi.symm.trans hj)
      exact ⟨new, List.mem_set (List.getElem?_eq_some_iff.mp hj).1 new, hlibrary.trans hlib, hwaiting ▸ hmap, hentries ▸ hentry⟩
    · refine ⟨other, List.mem_of_getElem? (i := i) ?_, hlib, hmap, hentry⟩
      rw [List.getElem?_set_ne (Ne.symm hij), hi]
  · rw [hhanded, hmissing]
    intro other ho
    obtain ho | rfl := hcases other ho
    · exact h.owned other ho
    · rw [hwaiting, hentries]
      exact h.owned job hmem
  · rw [hhanded, hmissing]
    intro library id map' hid hmap' hash e hget
    obtain ⟨map, hmap, hget⟩ | ⟨⟨rfl, he⟩, -⟩ := htakes id map' hmap' hash e hget
    · exact h.waits library id map hid hmap hash e hget
    · exact h.owned job hmem library hid e he
  · exact hreindexed

theorem grows_of_maps (hmaps : t.maps = s.maps) (hseen : t.seen = s.seen) : Grows s t where
  seen := by rw [hseen]; exact List.Subset.refl _
  maps id map hmap := ⟨map, by rw [hmaps]; exact hmap, fun _ e he => .inr ⟨e, he⟩⟩

theorem takes_of_maps (hmaps : t.maps = s.maps) (p : ℕ → VerifiedEntry → Prop) : Takes s t p :=
  fun _ map hmap _ _ hget => .inl ⟨map, hmaps ▸ hmap, hget⟩

/-- A step that only answers: its maps are the same, and what it saw more is at the end. -/
theorem grows_of_seen {more : List String} (hmaps : t.maps = s.maps) (hseen : t.seen = s.seen ++ more) : Grows s t where
  seen := by rw [hseen]; exact List.subset_append_left _ _
  maps id map hmap := ⟨map, by rw [hmaps]; exact hmap, fun _ e he => .inr ⟨e, he⟩⟩

/-- What the end of an item does: the item is kept, the state only grows, and the job's own map alone takes it in. -/
structure Judged (s : ContentFetcher) (job : FetchJob) (e : VerifiedEntry) (t : ContentFetcher) (new : FetchJob) : Prop where
  grows : Grows s t
  takes : Takes s t fun id x => id = job.waiting ∧ x = e
  kept : t.Kept job.waiting e
  length : t.maps.length = s.maps.length
  missing : t.missing = s.missing
  handed : t.handed = s.handed
  reindexed : t.reindexed = s.reindexed
  same : new = { job with arrived := new.arrived }
  arrived : ∀ x ∈ new.arrived, x ∈ job.arrived ∨ t.Came x

theorem getElem?_modify_map {l : List WaitingMap} {f : WaitingMap → WaitingMap} {i id : ℕ} {map : WaitingMap} (h : l[id]? = some map) :
    (l.modify i f)[id]? = some (if i = id then f map else map) := by
  rw [List.getElem?_modify, h]
  rfl

theorem exists_of_getElem?_modify {l : List WaitingMap} {f : WaitingMap → WaitingMap} {i id : ℕ} {map' : WaitingMap}
    (h : (l.modify i f)[id]? = some map') : ∃ map, l[id]? = some map ∧ map' = if i = id then f map else map := by
  rw [List.getElem?_modify] at h
  obtain ⟨map, hmap, rfl⟩ := Option.map_eq_some_iff.mp h
  exact ⟨map, hmap, rfl⟩

theorem judged_judge (s : ContentFetcher) (job : FetchJob) (e : VerifiedEntry) (stored got : Bool) (hmap : job.waiting < s.maps.length) :
    Judged s job e (s.judge job e stored got).1 (s.judge job e stored got).2 := by
  cases hcontent : contentOf e with
  | none =>
    have hjudge : s.judge job e stored got = (s, job) := by simp only [judge, hcontent]
    rw [hjudge]
    exact ⟨grows_of_maps rfl rfl, takes_of_maps rfl _, fun hsome => absurd hcontent hsome, rfl, rfl, rfl, rfl, rfl, fun x hx => .inl hx⟩
  | some content =>
    -- The item is answered as soon as its content is among the seen ones.
    have hcame : ∀ t : ContentFetcher, t.seen = s.seen ++ [content] → t.Came e := by
      intro t hseen
      exact ⟨content, by simp [hseen], hcontent⟩
    cases stored with
    | true =>
      have hjudge : s.judge job e true got = ({ s with seen := s.seen ++ [content] }, job) := by simp only [judge, hcontent, if_true]
      rw [hjudge]
      exact ⟨grows_of_seen rfl rfl, takes_of_maps rfl _, fun _ => .inl ⟨e, rfl, hcame _ rfl⟩, rfl, rfl, rfl, rfl, rfl, fun x hx => .inl hx⟩
    | false =>
      cases got with
      | true =>
        have hjudge : s.judge job e false true = ({ s with seen := s.seen ++ [content] }, { job with arrived := job.arrived ++ [e] }) := by
          simp only [judge, hcontent, Bool.false_eq_true, if_false, if_true]
        rw [hjudge]
        refine ⟨grows_of_seen rfl rfl, takes_of_maps rfl _, fun _ => .inl ⟨e, rfl, hcame _ rfl⟩, rfl, rfl, rfl, rfl, rfl, fun x hx => ?_⟩
        obtain hx | hx := List.mem_append.mp hx
        · exact .inl hx
        · obtain rfl := List.mem_singleton.mp hx
          exact .inr (hcame _ rfl)
      | false =>
        have hjudge : s.judge job e false false = ({ s with maps := s.maps.modify job.waiting fun map => map.set e.hash e }, job) := by
          simp only [judge, hcontent, Bool.false_eq_true, if_false]
        rw [hjudge]
        refine ⟨⟨List.Subset.refl _, fun id map hid => ⟨_, getElem?_modify_map hid, fun h x hx => .inr ?_⟩⟩, fun id map' hid h x hx => ?_,
          fun _ => .inr ⟨_, e, getElem?_modify_map (List.getElem?_eq_getElem hmap), ?_⟩, List.length_modify _ _ _, rfl, rfl, rfl, rfl,
          fun x hx => .inl hx⟩
        · by_cases hown : job.waiting = id
          · rw [if_pos hown, OrderedMap.get_set]
            by_cases hh : h = e.hash
            · exact ⟨e, if_pos hh⟩
            · exact ⟨x, by rw [if_neg hh, hx]⟩
          · exact ⟨x, by rw [if_neg hown, hx]⟩
        · obtain ⟨map, hmap', rfl⟩ := exists_of_getElem?_modify hid
          by_cases hown : job.waiting = id
          · rw [if_pos hown, OrderedMap.get_set] at hx
            by_cases hh : h = e.hash
            · rw [if_pos hh] at hx
              obtain rfl := Option.some_inj.mp hx
              exact .inr ⟨⟨hown.symm, rfl⟩, hh.symm⟩
            · rw [if_neg hh] at hx
              exact .inl ⟨map, hmap', hx⟩
          · rw [if_neg hown] at hx
            exact .inl ⟨map, hmap', hx⟩
        · rw [if_pos rfl, OrderedMap.get_set, if_pos rfl]

theorem Sound.item {stored got : Bool} (h : Sound limit s) (hs : s.step limit (.item j k stored got) = some t) : Sound limit t := by
  simp only [step] at hs
  split at hs
  · cases hs
  · next job hj =>
    split at hs
    · next e pool he hpool =>
      obtain rfl := Option.some_inj.mp hs
      have hmem := List.mem_of_getElem? hj
      have hjudged := judged_judge s { job with pool := pool } e stored got (h.mapOf job hmem)
      generalize s.judge { job with pool := pool } e stored got = judged at hjudged ⊢
      obtain ⟨after, new⟩ := judged
      obtain ⟨hgrows, htakes, hkept, hlength, hmissing, hhanded, hreindexed, hnew, harrived⟩ := hjudged
      simp only at hgrows htakes hkept hlength hmissing hhanded hreindexed hnew harrived ⊢
      rw [hnew] at harrived ⊢
      -- The jobs come last: what was kept or came so far did so in the state before.
      have hsame : Grows after { after with jobs := s.jobs.set j { job with pool := pool, arrived := new.arrived } } := grows_of_maps rfl rfl
      have hboth : Grows s { after with jobs := s.jobs.set j { job with pool := pool, arrived := new.arrived } } :=
        ⟨fun _ hc => hsame.seen (hgrows.seen hc), hgrows.maps⟩
      have hrunning := (h.works job hmem).mem_running (List.mem_of_getElem? he)
      refine h.advance hboth hj rfl hmissing hhanded hlength ?_ rfl rfl rfl ((h.works job hmem).finish hpool) ?_ ?_ ?_
      · intro id map' hid hash x hx
        obtain hold | ⟨⟨hown, rfl⟩, hhash⟩ := htakes id map' hid hash x hx
        · exact .inl hold
        · exact .inr ⟨⟨hown, hrunning⟩, hhash⟩
      · intro x hx
        obtain hx | hx := harrived x hx
        · exact hboth.came (h.came job hmem x hx)
        · exact hsame.came hx
      · intro x hx
        rw [show pool.finished = job.pool.finished ++ [e] from WorkerPool.finished_finish he hpool] at hx
        obtain hx | hx := List.mem_append.mp hx
        · exact hboth.kept (h.finished job hmem x hx)
        · obtain rfl := List.mem_singleton.mp hx
          exact hsame.kept hkept
      · intro p hp
        exact hboth.came (h.reindexed p (hreindexed ▸ hp))
    · cases hs

theorem Sound.throws (h : Sound limit s) (hs : s.step limit (.throws j k) = some t) : Sound limit t := by
  simp only [step] at hs
  split at hs
  · cases hs
  · next job hj =>
    obtain ⟨pool, hpool, rfl⟩ := Option.map_eq_some_iff.mp hs
    have hmem := List.mem_of_getElem? hj
    have hg : Grows s { s with jobs := s.jobs.set j { job with pool := pool } } := grows_of_maps rfl rfl
    refine h.advance hg hj rfl rfl rfl rfl (takes_of_maps rfl _) rfl rfl rfl ((h.works job hmem).throws hpool)
      (fun x hx => hg.came (h.came job hmem x hx)) (fun x hx => hg.kept (h.finished job hmem x ?_)) fun p hp => hg.came (h.reindexed p hp)
    rwa [WorkerPool.finished_throws hpool] at hx

/-- The entries that arrived leave a map, the others stay. -/
theorem get_deleteEach (arrived : List VerifiedEntry) (map : WaitingMap) (h : Hash) :
    (arrived.foldl (fun map e => map.delete e.hash) map).get h = if ∃ e ∈ arrived, e.hash = h then none else map.get h := by
  induction arrived generalizing map with
  | nil => simp
  | cons e rest ih =>
    rw [List.foldl_cons, ih, OrderedMap.get_delete]
    by_cases hrest : ∃ x ∈ rest, x.hash = h
    · obtain ⟨x, hx, hhash⟩ := hrest
      rw [if_pos ⟨x, hx, hhash⟩, if_pos ⟨x, List.mem_cons_of_mem e hx, hhash⟩]
    · rw [if_neg hrest]
      by_cases he : h = e.hash
      · rw [if_pos he, if_pos ⟨e, List.mem_cons_self, he.symm⟩]
      · rw [if_neg he, if_neg]
        rintro ⟨x, hx, hhash⟩
        obtain rfl | hx := List.mem_cons.mp hx
        · exact he hhash.symm
        · exact hrest ⟨x, hx, hhash⟩

theorem Sound.settle {isOpen : Bool} (h : Sound limit s) (hs : s.step limit (.settle j isOpen) = some t) : Sound limit t := by
  simp only [step] at hs
  split at hs
  · cases hs
  · next job hj =>
    split at hs
    · obtain rfl := Option.some_inj.mp hs
      have hmem := List.mem_of_getElem? hj
      have hg : Grows s { s with
          jobs := s.jobs.set j { job with settled := true }
          maps := s.maps.modify job.waiting fun map => job.arrived.foldl (fun map e => map.delete e.hash) map
          reindexed := if job.arrived ≠ [] ∧ isOpen then s.reindexed ++ job.arrived.map (job.library, ·) else s.reindexed } := by
        refine ⟨List.Subset.refl _, fun id map hid => ⟨_, getElem?_modify_map hid, fun hash x hx => ?_⟩⟩
        by_cases hown : job.waiting = id
        · rw [if_pos hown, get_deleteEach]
          by_cases hleft : ∃ e ∈ job.arrived, e.hash = hash
          · obtain ⟨e, he, hhash⟩ := hleft
            exact .inl ⟨e, hhash, h.came job hmem e he⟩
          · exact .inr ⟨x, by rw [if_neg hleft, hx]⟩
        · exact .inr ⟨x, by rw [if_neg hown, hx]⟩
      refine h.advance hg hj rfl rfl rfl (List.length_modify _ _ _) ?_ rfl rfl rfl (h.works job hmem)
        (fun x hx => hg.came (h.came job hmem x hx)) (fun x hx => hg.kept (h.finished job hmem x hx)) ?_
      · intro id map' hid hash x hx
        obtain ⟨map, hmap, rfl⟩ := exists_of_getElem?_modify hid
        refine .inl ⟨map, hmap, ?_⟩
        split at hx
        · rw [get_deleteEach] at hx
          exact (Option.ite_none_left_eq_some.mp hx).2
        · exact hx
      · intro p hp
        simp only at hp
        split at hp
        · obtain hp | hp := List.mem_append.mp hp
          · exact hg.came (h.reindexed p hp)
          · obtain ⟨e, he, rfl⟩ := List.mem_map.mp hp
            exact hg.came (h.came job hmem e he)
        · exact hg.came (h.reindexed p hp)
    · cases hs

/-- The fetcher once the library has a map. -/
structure Opened (s : ContentFetcher) (library : String) (t : ContentFetcher) (id : ℕ) : Prop where
  grows : Grows s t
  get : t.missing.get library = some id
  missing : ∀ other, other ≠ library → t.missing.get other = s.missing.get other
  old : ∀ old, s.missing.get library = some old → old = id
  maps : ∀ (i : ℕ) (map : WaitingMap), t.maps[i]? = some map → s.maps[i]? = some map ∨ i = s.maps.length ∧ map = .empty
  fresh : s.missing.get library = none → id = s.maps.length
  mem : id < t.maps.length
  le : s.maps.length ≤ t.maps.length

theorem opened_withMap (h : Sound limit s) (library : String) : Opened s library (s.withMap library).1 (s.withMap library).2 := by
  cases hget : s.missing.get library with
  | some id =>
    have hopen : s.withMap library = (s, id) := by simp only [withMap, hget]
    rw [hopen]
    exact ⟨grows_of_maps rfl rfl, hget, fun _ _ => rfl, fun old hold => Option.some_inj.mp (hold.symm.trans hget), fun i map hmap => .inl hmap,
      fun hnone => absurd (hget.symm.trans hnone) (Option.some_ne_none id), h.opened library id hget, le_refl _⟩
  | none =>
    have hopen : s.withMap library =
        ({ s with maps := s.maps ++ [.empty], missing := s.missing.set library s.maps.length }, s.maps.length) := by
      simp only [withMap, hget]
    rw [hopen]
    refine ⟨⟨List.Subset.refl _, fun i map hmap => ⟨map, ?_, fun _ e he => .inr ⟨e, he⟩⟩⟩, ?_, fun other hne => ?_,
      fun old hold => absurd (hold.symm.trans hget) (Option.some_ne_none old), fun i map hmap => ?_, fun _ => rfl, by simp, by simp⟩
    · exact (List.getElem?_append_left (List.getElem?_eq_some_iff.mp hmap).1).trans hmap
    · rw [OrderedMap.get_set, if_pos rfl]
    · rw [OrderedMap.get_set, if_neg hne]
    · obtain hlt | hge := lt_or_ge i s.maps.length
      · rw [List.getElem?_append_left hlt] at hmap
        exact .inl hmap
      · rw [List.getElem?_append_right hge, List.getElem?_singleton] at hmap
        obtain ⟨hzero, hsome⟩ := Option.ite_none_right_eq_some.mp hmap
        exact .inr ⟨by omega, (Option.some_inj.mp hsome).symm⟩

/-- An old pair of library and map is one still. -/
theorem Opened.keep {id i : ℕ} {other : String} (h : Opened s library t id) (hi : s.missing.get other = some i) :
    t.missing.get other = some i := by
  by_cases hne : other = library
  · subst hne
    rw [h.get, h.old i hi]
  · rw [h.missing other hne, hi]

/-- A pair is the one opened, or an old one. -/
theorem Opened.back {id i : ℕ} {other : String} (h : Opened s library t id) (hi : t.missing.get other = some i) :
    other = library ∧ i = id ∨ s.missing.get other = some i := by
  by_cases hne : other = library
  · subst hne
    exact .inl ⟨rfl, Option.some_inj.mp (hi.symm.trans h.get)⟩
  · exact .inr (h.missing other hne ▸ hi)

/-- A map that was there before is the library's already. -/
theorem Opened.was {id : ℕ} (h : Opened s library t id) (hlt : id < s.maps.length) : s.missing.get library = some id := by
  cases hlibrary : s.missing.get library with
  | none => exact absurd (h.fresh hlibrary) hlt.ne
  | some old => rw [h.old old hlibrary]

/-- The opened map is nobody else's. -/
theorem Opened.own {id : ℕ} {other : String} (h : Opened s library t id) (hs : Sound limit s) (hi : s.missing.get other = some id) :
    other = library :=
  hs.apart other library id hi (h.was (hs.opened other id hi))

/-- A fetch of entries handed over now, or before. -/
theorem Sound.fetch (h : Sound limit s) (library : String) (entries : List VerifiedEntry)
    {handed : List (String × VerifiedEntry)} (hold : ∀ p ∈ s.handed, p ∈ handed)
    (hentries : ∀ e ∈ entries, (library, e) ∈ handed)
    (hhanded : ∀ p ∈ handed, p ∈ s.handed ∨ p.1 = library ∧ p.2 ∈ entries) :
    Sound limit { s.fetch limit library entries with handed := handed } := by
  have hopened := opened_withMap h library
  have hreindexed : (s.withMap library).1.reindexed = s.reindexed := by
    unfold withMap
    split
    · rfl
    · rfl
  unfold ContentFetcher.fetch
  simp only
  generalize s.withMap library = opened at hopened hreindexed ⊢
  obtain ⟨after, id⟩ := opened
  simp only at hopened hreindexed ⊢
  set new : FetchJob := ⟨library, id, entries, .start limit entries, [], false⟩
  set t : ContentFetcher := { after with jobs := s.jobs ++ [new], handed := handed }
  have hg : Grows s t := ⟨hopened.grows.seen, hopened.grows.maps⟩
  have hcases : ∀ job ∈ t.jobs, job ∈ s.jobs ∨ job = new := fun job hj => (List.mem_append.mp hj).imp_right List.mem_singleton.mp
  constructor
  · intro job hj
    obtain hj | rfl := hcases job hj
    · exact h.works job hj
    · exact WorkerPool.works_start limit entries
  · intro job hj
    obtain hj | rfl := hcases job hj
    · exact lt_of_lt_of_le (h.mapOf job hj) hopened.le
    · exact hopened.mem
  · intro other i hi
    obtain ⟨-, rfl⟩ | hi := hopened.back hi
    · exact hopened.mem
    · exact lt_of_lt_of_le (h.opened other i hi) hopened.le
  · intro one other i hone hi
    obtain ⟨rfl, rfl⟩ | hone' := hopened.back hone
    · obtain ⟨rfl, -⟩ | hi' := hopened.back hi
      · rfl
      · exact (hopened.own h hi').symm
    · obtain ⟨rfl, rfl⟩ | hi' := hopened.back hi
      · exact hopened.own h hone'
      · exact h.apart one other i hone' hi'
  · intro i map hmap hash e he
    obtain hmap | ⟨-, rfl⟩ := hopened.maps i map hmap
    · exact h.keyed i map hmap hash e he
    · cases he
  · intro job hj
    obtain hj | rfl := hcases job hj
    · exact fun e he => hg.came (h.came job hj e he)
    · exact fun e he => absurd he List.not_mem_nil
  · intro job hj
    obtain hj | rfl := hcases job hj
    · exact fun e he => hg.kept (h.finished job hj e he)
    · exact fun e he => absurd he List.not_mem_nil
  · intro p hp
    obtain hp | ⟨rfl, he⟩ := hhanded p hp
    · obtain ⟨job, hj, hlibrary, hmap, hentry⟩ := h.handed p hp
      exact ⟨job, List.mem_append_left _ hj, hlibrary, hopened.keep hmap, hentry⟩
    · exact ⟨new, List.mem_append_right _ (List.mem_singleton_self new), rfl, hopened.get, he⟩
  · intro job hj other hi e he
    obtain hj' | rfl := hcases job hj
    · obtain ⟨rfl, hnew⟩ | hi' := hopened.back hi
      · have hlt := h.mapOf job hj'
        exact hold _ (h.owned job hj' other (hnew ▸ hopened.was (hnew ▸ hlt)) e he)
      · exact hold _ (h.owned job hj' other hi' e he)
    · obtain ⟨rfl, -⟩ | hi' := hopened.back hi
      · exact hentries e he
      · rw [hopened.own h hi']
        exact hentries e he
  · intro other i map hi hmap hash e he
    obtain hmap' | ⟨-, rfl⟩ := hopened.maps i map hmap
    · obtain ⟨rfl, rfl⟩ | hi' := hopened.back hi
      · have hlt := (List.getElem?_eq_some_iff.mp hmap').1
        exact hold _ (h.waits other i map (hopened.was hlt) hmap' hash e he)
      · exact hold _ (h.waits other i map hi' hmap' hash e he)
    · cases he
  · intro p hp
    exact hg.came (h.reindexed p (hreindexed ▸ hp))

theorem Sound.forget (h : Sound limit s) (library : String) :
    Sound limit { s with missing := s.missing.delete library, handed := s.handed.filter fun p => p.1 ≠ library } := by
  set t : ContentFetcher := { s with missing := s.missing.delete library, handed := s.handed.filter fun p => p.1 ≠ library }
  have hg : Grows s t := grows_of_maps rfl rfl
  have hget : ∀ other i, t.missing.get other = some i → other ≠ library ∧ s.missing.get other = some i :=
    fun other i hi => (OrderedMap.get_delete_eq_some s.missing).mp hi
  have hfilter : ∀ p : String × VerifiedEntry, p ∈ t.handed ↔ p ∈ s.handed ∧ p.1 ≠ library := by simp [t]
  refine { h with opened := ?_, apart := ?_, came := ?_, finished := ?_, handed := ?_, owned := ?_, waits := ?_, reindexed := ?_ }
  · exact fun other i hi => h.opened other i (hget other i hi).2
  · exact fun one other i hone hi => h.apart one other i (hget one i hone).2 (hget other i hi).2
  · exact fun job hj e he => hg.came (h.came job hj e he)
  · exact fun job hj e he => hg.kept (h.finished job hj e he)
  · intro p hp
    obtain ⟨hp, hne⟩ := (hfilter p).mp hp
    obtain ⟨job, hj, hlibrary, hmap, hentry⟩ := h.handed p hp
    exact ⟨job, hj, hlibrary, (OrderedMap.get_delete_eq_some s.missing).mpr ⟨hne, hmap⟩, hentry⟩
  · intro job hj other hi e he
    obtain ⟨hne, hi⟩ := hget other _ hi
    exact (hfilter _).mpr ⟨h.owned job hj other hi e he, hne⟩
  · intro other i map hi hmap hash e he
    obtain ⟨hne, hi⟩ := hget other i hi
    exact (hfilter _).mpr ⟨h.waits other i map hi hmap hash e he, hne⟩
  · exact fun p hp => hg.came (h.reindexed p hp)

theorem fetch_handed (limit : ℕ) (s : ContentFetcher) (library : String) (entries : List VerifiedEntry) :
    (s.fetch limit library entries).handed = s.handed := by
  unfold ContentFetcher.fetch withMap
  split <;> rfl

theorem mem_waitingFor : e ∈ s.waitingFor library ↔
    ∃ (id : ℕ) (map : WaitingMap) (h : Hash), s.missing.get library = some id ∧ s.maps[id]? = some map ∧ map.get h = some e := by
  unfold waitingFor
  cases hget : s.missing.get library with
  | none => simp
  | some id =>
    cases hmap : s.maps[id]? with
    | none => simp [hmap]
    | some map => simp [hmap, OrderedMap.mem_values_iff]

theorem Sound.waiting_handed (h : Sound limit s) (he : e ∈ s.waitingFor library) : (library, e) ∈ s.handed := by
  obtain ⟨id, map, hash, hid, hmap, hget⟩ := mem_waitingFor.mp he
  exact h.waits library id map hid hmap hash e hget

theorem Sound.step {l : Label} (h : Sound limit s) (hs : s.step limit l = some t) : Sound limit t := by
  cases l with
  | fetch library entries =>
    obtain rfl := Option.some_inj.mp hs
    refine h.fetch library entries (fun p hp => List.mem_append_left _ hp)
      (fun e he => List.mem_append_right _ (List.mem_map_of_mem he)) fun p hp => (List.mem_append.mp hp).imp_right ?_
    intro hp
    obtain ⟨e, he, rfl⟩ := List.mem_map.mp hp
    exact ⟨rfl, he⟩
  | retryMissing library =>
    obtain rfl := Option.some_inj.mp hs
    split
    · exact h
    · have hretry := h.fetch library (s.waitingFor library) (fun p hp => hp) (fun e he => h.waiting_handed he) fun p hp => .inl hp
      rwa [← fetch_handed limit s library (s.waitingFor library)] at hretry
  | item j k stored got => exact h.item hs
  | throws j k => exact h.throws hs
  | settle j isOpen => exact h.settle hs
  | forget library =>
    obtain rfl := Option.some_inj.mp hs
    exact h.forget library

theorem sound_run (h : Run (step limit) (· = create) anyLabel s) : Sound limit s :=
  h.invariant (fun _ h0 => h0 ▸ sound_create limit) fun _ _ _ hs _ ht => hs.step ht

/-- What waits is on its way again once it is retried. -/
theorem retry_pending (hlimit : 0 < limit) (hs : s.step limit (.retryMissing library) = some t) (he : e ∈ s.waitingFor library) :
    ∃ job ∈ t.jobs, job.library = library ∧ job.pool.Pending e := by
  obtain rfl := Option.some_inj.mp hs
  rw [if_neg (List.ne_nil_of_mem he)]
  exact ⟨_, List.mem_append_right _ (List.mem_singleton_self _), rfl, WorkerPool.pending_start hlimit he⟩

/-- An entry with content is with a worker or queued behind one, or was answered, or waits, or its fetch
lost it. -/
theorem Sound.kept (h : Sound limit s) {p : String × VerifiedEntry} (hp : p ∈ s.handed) (hcontent : contentOf p.2 ≠ none) :
    (∃ job ∈ s.jobs, job.library = p.1 ∧ job.pool.Pending p.2) ∨ s.Answered p.2.hash ∨
      (∃ e ∈ s.waitingFor p.1, e.hash = p.2.hash) ∨ ∃ job ∈ s.jobs, job.library = p.1 ∧ job.pool.Lost p.2 := by
  obtain ⟨job, hj, hlibrary, hmap, hentry⟩ := h.handed p hp
  obtain hpending | hfinished | hlost := (h.works job hj).mem hentry
  · exact .inl ⟨job, hj, hlibrary, hpending⟩
  · obtain hanswered | ⟨map, e, hat, hget⟩ := h.finished job hj p.2 hfinished hcontent
    · exact .inr (.inl hanswered)
    · exact .inr (.inr (.inl ⟨e, mem_waitingFor.mpr ⟨_, map, _, hmap, hat, hget⟩, h.keyed _ map hat _ e hget⟩))
  · exact .inr (.inr (.inr ⟨job, hj, hlibrary, hlost⟩))

end ContentFetcher

/-- Whatever fetches run beside each other and however they end: a fetch has no more than the limit
under way, each entry in one place, and one whose workers are done without a throw has been
through all of them. An entry handed over whose library was not forgotten since is with a worker or
queued behind one, or its content was stored or came, or a retry will hand it over again, or its fetch
lost it: it threw, or each of the workers did. A retry sets all that waits on its way again and nothing
that was not handed over, and no entry is indexed again before its content came. -/
theorem content_fetch {limit : ℕ} (hlimit : 0 < limit) {s : ContentFetcher}
    (h : Run (ContentFetcher.step limit) (· = ContentFetcher.create) anyLabel s) :
    (∀ job ∈ s.jobs, job.pool.running.length ≤ limit ∧
        (job.pool.queue ++ (job.pool.running ++ (job.pool.finished ++ job.pool.thrown))).Perm job.entries ∧
        (job.pool.running = [] → job.pool.thrown = [] → job.pool.finished.Perm job.entries) ∧
        ∀ e, job.pool.Lost e → e ∈ job.pool.thrown ∨ job.pool.thrown.length = limit) ∧
      (∀ p ∈ s.handed, contentOf p.2 ≠ none →
        (∃ job ∈ s.jobs, job.library = p.1 ∧ job.pool.Pending p.2) ∨ s.Answered p.2.hash ∨
          (∃ e ∈ s.waitingFor p.1, e.hash = p.2.hash) ∨ ∃ job ∈ s.jobs, job.library = p.1 ∧ job.pool.Lost p.2) ∧
      (∀ library, ∀ e ∈ s.waitingFor library, (library, e) ∈ s.handed ∧
        ∀ t, s.step limit (.retryMissing library) = some t → ∃ job ∈ t.jobs, job.library = library ∧ job.pool.Pending e) ∧
      ∀ p ∈ s.reindexed, s.Came p.2 := by
  have hs := ContentFetcher.sound_run h
  refine ⟨fun job hj => ?_, fun p hp hcontent => hs.kept hp hcontent, fun library e he => ?_, hs.reindexed⟩
  · have hworks := hs.works job hj
    exact ⟨hworks.bound, hworks.perm, fun hrunning hthrown => (hworks.drained hlimit hrunning hthrown).2,
      fun e he => hworks.lost he⟩
  · exact ⟨hs.waiting_handed he, fun t ht => ContentFetcher.retry_pending hlimit ht he⟩

namespace FetchSample

theorem isHex_zeros : isHex64 (bytesToHex (List.replicate 32 0)) = true :=
  isHex64_bytesToHex ⟨_, List.length_replicate⟩

def trackId : TrackId := ⟨bytesToHex (List.replicate 32 0), isHex_zeros⟩

theorem length_digest (n : UInt8) : (n :: List.replicate 63 0).length = 64 := by
  rw [List.length_cons, List.length_replicate]

def track (n : UInt8) (content : String) : VerifiedEntry where
  digest := ⟨n :: List.replicate 63 0, length_digest n⟩
  bytes := []
  entry := ⟨"library", .null, [], [], ⟨"owner", 1⟩, "owner", "sig"⟩
  operation := .track ⟨trackId, 1, content⟩ none

/-- Of two payloads one comes at once; the other is on its way again when the first is indexed. The fetch
of two more throws at the first, and its one worker takes no other. -/
def labels : List ContentFetcher.Label :=
  [.fetch "library" [track 0 "first", track 1 "second"], .item 0 0 false false, .retryMissing "library",
    .item 0 0 false true, .settle 0 true, .fetch "library" [track 2 "third", track 3 "fourth"], .throws 2 0]

end FetchSample

theorem content_fetch_two : ∃ s, runLabels (ContentFetcher.step 1) .create FetchSample.labels = some s ∧
    s.reindexed = [("library", FetchSample.track 1 "second")] ∧ s.handed.length = 4 ∧
    (∀ job ∈ s.jobs, job.pool.running.length ≤ 1 ∧
        (job.pool.queue ++ (job.pool.running ++ (job.pool.finished ++ job.pool.thrown))).Perm job.entries ∧
        (job.pool.running = [] → job.pool.thrown = [] → job.pool.finished.Perm job.entries) ∧
        ∀ e, job.pool.Lost e → e ∈ job.pool.thrown ∨ job.pool.thrown.length = 1) ∧
      (∀ p ∈ s.handed, contentOf p.2 ≠ none →
        (∃ job ∈ s.jobs, job.library = p.1 ∧ job.pool.Pending p.2) ∨ s.Answered p.2.hash ∨
          (∃ e ∈ s.waitingFor p.1, e.hash = p.2.hash) ∨ ∃ job ∈ s.jobs, job.library = p.1 ∧ job.pool.Lost p.2) ∧
      (∀ library, ∀ e ∈ s.waitingFor library, (library, e) ∈ s.handed ∧
        ∀ t, s.step 1 (.retryMissing library) = some t → ∃ job ∈ t.jobs, job.library = library ∧ job.pool.Pending e) ∧
      ∀ p ∈ s.reindexed, s.Came p.2 := by
  obtain ⟨s, hs, hreindexed, hhanded⟩ : ∃ s, runLabels (ContentFetcher.step 1) .create FetchSample.labels = some s ∧
      s.reindexed = [("library", FetchSample.track 1 "second")] ∧ s.handed.length = 4 := ⟨_, rfl, rfl, rfl⟩
  exact ⟨s, hs, hreindexed, hhanded, content_fetch Nat.one_pos (Run.of_runLabels (.start rfl) (fun _ _ _ => trivial) hs)⟩

end RecordNode
