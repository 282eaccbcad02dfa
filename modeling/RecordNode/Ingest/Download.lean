import Mathlib.Data.List.Infix
import RecordNode.Foundation.OrderedMap
import RecordNode.Ingest.Fingerprint

/-! # Downloads

The audio of a resolved entry comes from a URL nobody vouches for. Redirects are followed
by hand, so that each hop is checked and credentials stay with the origin they are for. A
response that breaks off is resumed where the file ends, and only by a source that
continues at exactly that byte. -/

namespace RecordNode

open Foundation

structure WebUrl where
  protocol : String
  hostname : String
  origin : String
  href : String
deriving DecidableEq

/-- URL parsing and the address rules of the resolver package: the class of a literal address
that is not public, none for a public one and for a name. -/
structure UrlRules where
  parse : String → Option WebUrl
  resolve : String → WebUrl → Option WebUrl
  literalClass : String → Option String

abbrev Headers := OrderedMap String String

structure HttpResponse where
  status : ℕ
  location : Option String
  contentRange : Option String

structure HopRequest where
  url : WebUrl
  headers : Headers

/-- What becomes of a request: an error, raised by the guarded lookup or not, or a response. -/
inductive HopAnswer where
  | error (blocked : Bool) (message : String)
  | response (r : HttpResponse)

inductive DownloadError where
  | ingest (e : IngestError)
  | invalidLocation (location : String)
deriving DecidableEq

namespace Download

def maxRedirects : ℕ := 10
def maxResumes : ℕ := 8
def redirectStatuses : List ℕ := [301, 302, 303, 307, 308]
def originBoundHeaders : List String := ["authorization", "cookie"]

def failed (message : String) : IngestError := ⟨.downloadFailed, s!"download of the resolved audio {message}"⟩

/-- A hostname without the brackets of an IPv6 literal. -/
def bareHost (hostname : String) : String :=
  let open_ := if hostname.startsWith "[" then (hostname.drop 1).toString else hostname
  if open_.endsWith "]" then (open_.dropEnd 1).toString else open_

variable (U : UrlRules)

/-- What `get` refuses before any request is made. -/
def refusal (url : WebUrl) : Option IngestError :=
  if url.protocol ≠ "http:" ∧ url.protocol ≠ "https:" then
    some (failed s!"was redirected to a non-http(s) url: {url.href}")
  else
    let host := bareHost url.hostname
    (U.literalClass host).map fun kind => failed s!"was refused: {host} is a {kind} address"

def answered : HopAnswer → Except IngestError HttpResponse
  | .error blocked message => .error (failed (if blocked then s!"was refused: {message}" else s!"failed: {message}"))
  | .response r => .ok r

def redirectTarget (r : HttpResponse) : Option String :=
  if r.status ∈ redirectStatuses then r.location else none

def isOriginBound (name : String) : Bool := originBoundHeaders.contains name.toLower

def dropOriginBound (headers : Headers) : Headers := headers.filterKeys fun name => !isOriginBound name

/-- The requests made, in order, and how it ended. -/
structure Followed where
  sent : List HopRequest
  result : Except DownloadError HttpResponse

/-- `follow` from its hop `hop`, with `left` redirects to go. -/
def followFrom (answers : ℕ → HopAnswer) (left hop : ℕ) (current : WebUrl) (headers : Headers) : Followed :=
  match refusal U current with
  | some e => ⟨[], .error (.ingest e)⟩
  | none =>
    match answered (answers hop) with
    | .error e => ⟨[⟨current, headers⟩], .error (.ingest e)⟩
    | .ok response =>
      match redirectTarget response with
      | none =>
        if response.status < 200 ∨ 299 < response.status then
          ⟨[⟨current, headers⟩], .error (.ingest (failed s!"answered {response.status}"))⟩
        else ⟨[⟨current, headers⟩], .ok response⟩
      | some location =>
        match left with
        | 0 => ⟨[⟨current, headers⟩], .error (.ingest (failed s!"redirected more than {maxRedirects} times"))⟩
        | left + 1 =>
          match U.resolve location current with
          | none => ⟨[⟨current, headers⟩], .error (.invalidLocation location)⟩
          | some next =>
            let rest := followFrom answers left (hop + 1) next
              (if next.origin ≠ current.origin then dropOriginBound headers else headers)
            ⟨⟨current, headers⟩ :: rest.sent, rest.result⟩

def follow (answers : ℕ → HopAnswer) (url : WebUrl) (headers : Headers) : Followed :=
  followFrom U answers maxRedirects 0 url headers

/-! ## Resuming -/

def parseDigits (digits : List Char) : ℕ := digits.foldl (fun n c => 10 * n + (c.toNat - '0'.toNat)) 0

/-- The first byte a `Content-Range` names: digits after `bytes `, closed by a hyphen. -/
def rangeStart (contentRange : String) : Option ℕ :=
  match contentRange.toList with
  | 'b' :: 'y' :: 't' :: 'e' :: 's' :: ' ' :: rest =>
    let digits := rest.takeWhile Char.isDigit
    if digits ≠ [] ∧ (rest.drop digits.length).head? = some '-' then some (parseDigits digits) else none
  | _ => none

def resumesAt (response : HttpResponse) (offset : ℕ) : Bool :=
  response.status = 206 && rangeStart (response.contentRange.getD "") = some offset

def withRange (headers : Headers) (written : ℕ) : Headers :=
  if 0 < written then headers.set "Range" s!"bytes={written}-" else headers

/-- How piping a body into the file went: what was delivered, whether all of it landed, and if
not, whether the file was opened and how much of it was written. -/
structure Transfer where
  delivered : Bytes
  completed : Bool
  opened : Bool
  flushed : ℕ
  aborted : Bool
  message : String

/-- The file afterwards: appended to when there is something to resume, else begun anew. -/
def Transfer.land (t : Transfer) (written : ℕ) (file : Option Bytes) : Option Bytes :=
  let base := if 0 < written then file.getD [] else []
  if t.completed then some (base ++ t.delivered)
  else if t.opened then some (base ++ t.delivered.take t.flushed)
  else file

def fileSize (file : Option Bytes) : ℕ := (file.getD []).length

structure DownloadRun where
  sent : List (List HopRequest)
  file : Option Bytes
  result : Except DownloadError Unit

/-- The attempts from number `resumes` on, with `left` more allowed. -/
def downloadFrom (answers : ℕ → ℕ → HopAnswer) (transfers : ℕ → HttpResponse → ℕ → Transfer) (source : WebUrl)
    (headers : Headers) (left resumes written : ℕ) (file : Option Bytes) : DownloadRun :=
  let followed := follow U (answers resumes) source (withRange headers written)
  match followed.result with
  | .error e => ⟨[followed.sent], file, .error e⟩
  | .ok response =>
    if 0 < written ∧ resumesAt response written = false then
      ⟨[followed.sent], file,
        .error (.ingest (failed s!"broke off at byte {written}, and the source did not resume there"))⟩
    else
      let t := transfers resumes response written
      let landed := t.land written file
      if t.completed then ⟨[followed.sent], landed, .ok ()⟩
      else
        match left with
        | 0 => ⟨[followed.sent], landed, .error (.ingest (failed s!"broke off: {t.message}"))⟩
        | left + 1 =>
          if t.aborted then ⟨[followed.sent], landed, .error (.ingest (failed s!"broke off: {t.message}"))⟩
          else
            let rest := downloadFrom answers transfers source headers left (resumes + 1) (fileSize landed) landed
            ⟨followed.sent :: rest.sent, rest.file, rest.result⟩

def download (answers : ℕ → ℕ → HopAnswer) (transfers : ℕ → HttpResponse → ℕ → Transfer) (url : String)
    (headers : Headers) (file : Option Bytes) : DownloadRun :=
  match U.parse url with
  | none => ⟨[], file, .error (.ingest (failed s!"has an invalid url: {url}"))⟩
  | some source => downloadFrom U answers transfers source headers maxResumes 0 0 file

/-! ## The requests of one attempt -/

variable {U} {answers : ℕ → HopAnswer}

/-- Some header of the request belongs to one origin. -/
def CarriesBound (headers : Headers) : Prop := ∃ name ∈ headers.keys, isOriginBound name = true

theorem not_carriesBound_drop (headers : Headers) : ¬ CarriesBound (dropOriginBound headers) := by
  rintro ⟨name, hname, hbound⟩
  obtain ⟨value, hvalue⟩ := (OrderedMap.mem_keys_iff _ _).mp hname
  rw [dropOriginBound, OrderedMap.get_filterKeys] at hvalue
  simp [hbound] at hvalue

/-- One hop: nothing is sent, or the request is, and what follows it is another hop. -/
inductive Hop (U : UrlRules) (answers : ℕ → HopAnswer) (left hop : ℕ) (current : WebUrl) (headers : Headers) :
    List HopRequest → Prop
  | refused : Hop U answers left hop current headers []
  | last (h : refusal U current = none) : Hop U answers left hop current headers [⟨current, headers⟩]
  | next {rest : ℕ} {url : WebUrl} (h : refusal U current = none) (hleft : left = rest + 1) :
      Hop U answers left hop current headers (⟨current, headers⟩ :: (followFrom U answers rest (hop + 1) url
        (if url.origin ≠ current.origin then dropOriginBound headers else headers)).sent)

theorem hop_followFrom (U : UrlRules) (answers : ℕ → HopAnswer) (left hop : ℕ) (current : WebUrl) (headers : Headers) :
    Hop U answers left hop current headers (followFrom U answers left hop current headers).sent := by
  rw [followFrom.eq_def]
  split
  · exact .refused
  · next hrefusal =>
    split
    · exact .last hrefusal
    · split
      · split
        · exact .last hrefusal
        · exact .last hrefusal
      · split
        · exact .last hrefusal
        · split
          · exact .last hrefusal
          · exact .next hrefusal rfl

theorem CarriesBound.of_crossing {headers : Headers} {next current : WebUrl}
    (h : CarriesBound (if next.origin ≠ current.origin then dropOriginBound headers else headers)) :
    next.origin = current.origin ∧ CarriesBound headers := by
  split at h
  · exact absurd h (not_carriesBound_drop headers)
  · next hsame => exact ⟨not_not.mp hsame, h⟩

/-- Once the origin-bound headers are gone they stay gone. -/
theorem carriesBound_of_sent {left hop : ℕ} {current : WebUrl} {headers : Headers} {r : HopRequest}
    (hr : r ∈ (followFrom U answers left hop current headers).sent) (hbound : CarriesBound r.headers) :
    CarriesBound headers := by
  induction left using Nat.strong_induction_on generalizing hop current headers with
  | _ left ih =>
    have hhop := hop_followFrom U answers left hop current headers
    generalize (followFrom U answers left hop current headers).sent = sent at hr hhop
    cases hhop with
    | refused => cases hr
    | last h =>
      obtain rfl := List.mem_singleton.mp hr
      exact hbound
    | next h hleft =>
      rcases List.mem_cons.mp hr with rfl | hrest
      · exact hbound
      · exact (ih _ (by omega) hrest).of_crossing.2

/-- The requests of an attempt: few enough, each checked before it was made, and one that carries
credentials has only requests to the first origin before it. -/
structure SafeHops (U : UrlRules) (limit : ℕ) (origin : String) (sent : List HopRequest) : Prop where
  count : sent.length ≤ limit
  checked : ∀ r ∈ sent, refusal U r.url = none
  bound : ∀ (j : ℕ) (r : HopRequest), sent[j]? = some r → CarriesBound r.headers →
    ∀ i ≤ j, ∀ q, sent[i]? = some q → q.url.origin = origin

theorem safeHops_nil (limit : ℕ) (origin : String) : SafeHops U limit origin [] :=
  ⟨Nat.zero_le _, fun _ hr => absurd hr List.not_mem_nil, fun _ _ hj => by cases hj⟩

theorem safeHops_singleton {limit : ℕ} {r : HopRequest} (hlimit : 0 < limit) (hr : refusal U r.url = none) :
    SafeHops U limit r.url.origin [r] := by
  refine ⟨hlimit, fun q hq => List.mem_singleton.mp hq ▸ hr, ?_⟩
  intro _ _ _ _ i _ q hq
  rw [List.mem_singleton.mp (List.mem_of_getElem? hq)]

theorem safeHops_cons {limit : ℕ} {origin : String} {r : HopRequest} {rest : List HopRequest}
    (hr : refusal U r.url = none) (hrest : SafeHops U limit origin rest)
    (hbound : ∀ q ∈ rest, CarriesBound q.headers → origin = r.url.origin) :
    SafeHops U (limit + 1) r.url.origin (r :: rest) := by
  refine ⟨Nat.succ_le_succ hrest.count, List.forall_mem_cons.mpr ⟨hr, hrest.checked⟩, ?_⟩
  intro j p hp hcarries i hij q hq
  cases i with
  | zero =>
    rw [List.getElem?_cons_zero] at hq
    rw [← Option.some_inj.mp hq]
  | succ i =>
    cases j with
    | zero => omega
    | succ j =>
      rw [List.getElem?_cons_succ] at hp hq
      rw [hrest.bound j p hp hcarries i (by omega) q hq, hbound p (List.mem_of_getElem? hp) hcarries]

theorem safeHops_followFrom (left hop : ℕ) (current : WebUrl) (headers : Headers) :
    SafeHops U (left + 1) current.origin (followFrom U answers left hop current headers).sent := by
  induction left using Nat.strong_induction_on generalizing hop current headers with
  | _ left ih =>
    have hhop := hop_followFrom U answers left hop current headers
    generalize (followFrom U answers left hop current headers).sent = sent at hhop
    cases hhop with
    | refused => exact safeHops_nil _ _
    | last h => exact safeHops_singleton (r := ⟨current, headers⟩) (Nat.succ_pos _) h
    | next h hleft =>
      subst hleft
      exact safeHops_cons (r := ⟨current, headers⟩) h (ih _ (Nat.lt_succ_self _) _ _ _) fun q hq hcarries =>
        (carriesBound_of_sent hq hcarries).of_crossing.1

/-! ## The file -/

/-- What an accepted response delivers is the content from the byte asked for. -/
def Honest (content : Bytes) (transfers : ℕ → HttpResponse → ℕ → Transfer) : Prop :=
  ∀ k response written, (written = 0 ∨ resumesAt response written = true) →
    (transfers k response written).delivered <+: content.drop written ∧
      ((transfers k response written).completed = true → (transfers k response written).delivered = content.drop written)

/-- The file is as long as what is to be resumed, and what it holds is how the content begins. -/
def Partly (content : Bytes) (file : Option Bytes) : Prop := ∀ b, file = some b → b <+: content

theorem land_partly {content : Bytes} {t : Transfer} {file : Option Bytes} (hfile : Partly content file)
    (hbegins : t.delivered <+: content.drop (fileSize file)) : Partly content (t.land (fileSize file) file) := by
  have hbase : (if 0 < fileSize file then file.getD [] else []) = file.getD [] := by
    split
    · rfl
    · next hzero => exact (List.length_eq_zero_iff.mp (Nat.eq_zero_of_not_pos hzero)).symm
  have hstart : file.getD [] ++ content.drop (fileSize file) = content := by
    cases file with
    | none => rfl
    | some b =>
      obtain ⟨rest, rfl⟩ := hfile b rfl
      simp [fileSize]
  have happend : ∀ part, part <+: content.drop (fileSize file) → file.getD [] ++ part <+: content := by
    intro part hpart
    rw [← hstart]
    exact (List.prefix_append_right_inj _).mpr hpart
  intro b hb
  unfold Transfer.land at hb
  rw [hbase] at hb
  split at hb
  · rw [← Option.some_inj.mp hb]
    exact happend _ hbegins
  · split at hb
    · rw [← Option.some_inj.mp hb]
      exact happend _ ((List.take_prefix _ _).trans hbegins)
    · exact hfile b hb

theorem land_completed {content : Bytes} {t : Transfer} {file : Option Bytes} (hfile : Partly content file)
    (hcompleted : t.completed = true) (hall : t.delivered = content.drop (fileSize file)) :
    t.land (fileSize file) file = some content := by
  rw [Transfer.land, if_pos hcompleted, hall]
  cases file with
  | none => simp [fileSize]
  | some b =>
    obtain ⟨rest, rfl⟩ := hfile b rfl
    by_cases hpos : 0 < b.length
    · simp [fileSize, hpos]
    · rw [List.length_eq_zero_iff.mp (Nat.eq_zero_of_not_pos hpos)]
      simp [fileSize]

section Attempts
variable (U : UrlRules) (answers : ℕ → ℕ → HopAnswer) (transfers : ℕ → HttpResponse → ℕ → Transfer) (source : WebUrl)
  (headers : Headers)

/-- What one attempt leaves, and whether another follows. -/
inductive Attempt (left resumes written : ℕ) (file : Option Bytes) : DownloadRun → Prop
  | refused {e : DownloadError} : Attempt left resumes written file
      ⟨[(follow U (answers resumes) source (withRange headers written)).sent], file, .error e⟩
  | done {response : HttpResponse} (h : written = 0 ∨ resumesAt response written = true)
      (hcompleted : (transfers resumes response written).completed = true) :
      Attempt left resumes written file
        ⟨[(follow U (answers resumes) source (withRange headers written)).sent],
          (transfers resumes response written).land written file, .ok ()⟩
  | broken {response : HttpResponse} {e : DownloadError}
      (h : written = 0 ∨ resumesAt response written = true) :
      Attempt left resumes written file
        ⟨[(follow U (answers resumes) source (withRange headers written)).sent],
          (transfers resumes response written).land written file, .error e⟩
  | resumed {response : HttpResponse} {rest : ℕ} {landed : Option Bytes} {run : DownloadRun}
      (h : written = 0 ∨ resumesAt response written = true) (hleft : left = rest + 1)
      (hlanded : landed = (transfers resumes response written).land written file)
      (hrun : run = downloadFrom U answers transfers source headers rest (resumes + 1) (fileSize landed) landed) :
      Attempt left resumes written file
        ⟨(follow U (answers resumes) source (withRange headers written)).sent :: run.sent, run.file, run.result⟩

theorem attempt_downloadFrom (left resumes written : ℕ) (file : Option Bytes) :
    Attempt U answers transfers source headers left resumes written file
      (downloadFrom U answers transfers source headers left resumes written file) := by
  rw [downloadFrom.eq_def]
  simp only
  split
  · exact .refused
  · split
    · exact .refused
    · next hresumes =>
      have hfrom : ∀ response, ¬ (0 < written ∧ resumesAt response written = false) →
          written = 0 ∨ resumesAt response written = true := by
        intro response hnot
        cases hat : resumesAt response written with
        | true => exact .inr rfl
        | false => exact .inl (Nat.eq_zero_of_not_pos fun hpos => hnot ⟨hpos, hat⟩)
      split
      · next hcompleted => exact .done (hfrom _ hresumes) hcompleted
      · split
        · exact .broken (hfrom _ hresumes)
        · split
          · exact .broken (hfrom _ hresumes)
          · exact .resumed (hfrom _ hresumes) rfl rfl rfl

theorem safeHops_downloadFrom (left resumes written : ℕ) (file : Option Bytes) :
    let run := downloadFrom U answers transfers source headers left resumes written file
    run.sent.length ≤ left + 1 ∧ ∀ sent ∈ run.sent, SafeHops U (maxRedirects + 1) source.origin sent := by
  have hfollow : ∀ resumes written, SafeHops U (maxRedirects + 1) source.origin
      (follow U (answers resumes) source (withRange headers written)).sent :=
    fun resumes written => safeHops_followFrom _ _ _ _
  induction left using Nat.strong_induction_on generalizing resumes written file with
  | _ left ih =>
    have hattempt := attempt_downloadFrom U answers transfers source headers left resumes written file
    generalize downloadFrom U answers transfers source headers left resumes written file = run at hattempt
    cases hattempt with
    | refused => exact ⟨Nat.succ_le_succ (Nat.zero_le _), List.forall_mem_singleton.mpr (hfollow _ _)⟩
    | done h hcompleted => exact ⟨Nat.succ_le_succ (Nat.zero_le _), List.forall_mem_singleton.mpr (hfollow _ _)⟩
    | broken h => exact ⟨Nat.succ_le_succ (Nat.zero_le _), List.forall_mem_singleton.mpr (hfollow _ _)⟩
    | resumed h hleft hlanded hrun =>
      subst hleft hrun
      obtain ⟨hcount, hsafe⟩ := ih _ (Nat.lt_succ_self _) (resumes + 1) _ _
      exact ⟨Nat.succ_le_succ hcount, List.forall_mem_cons.mpr ⟨hfollow _ _, hsafe⟩⟩

theorem file_downloadFrom {content : Bytes} (hhonest : Honest content transfers) (left resumes : ℕ)
    {file : Option Bytes} (hfile : Partly content file) :
    let run := downloadFrom U answers transfers source headers left resumes (fileSize file) file
    Partly content run.file ∧ (run.result = .ok () → run.file = some content) := by
  have hland : ∀ {response file}, Partly content file →
      fileSize file = 0 ∨ resumesAt response (fileSize file) = true → ∀ resumes,
        Partly content ((transfers resumes response (fileSize file)).land (fileSize file) file) :=
    fun hpartly h resumes => land_partly hpartly (hhonest resumes _ _ h).1
  induction left using Nat.strong_induction_on generalizing resumes file with
  | _ left ih =>
    have hattempt := attempt_downloadFrom U answers transfers source headers left resumes (fileSize file) file
    generalize downloadFrom U answers transfers source headers left resumes (fileSize file) file = run at hattempt
    cases hattempt with
    | refused => exact ⟨hfile, fun h => by cases h⟩
    | done h hcompleted =>
      exact ⟨hland hfile h resumes, fun _ => land_completed hfile hcompleted ((hhonest resumes _ _ h).2 hcompleted)⟩
    | broken h => exact ⟨hland hfile h resumes, fun h => by cases h⟩
    | resumed h hleft hlanded hrun =>
      subst hleft hlanded hrun
      exact ih _ (Nat.lt_succ_self _) (resumes + 1) (hland hfile h resumes)

end Attempts

end Download

open Download

/-- From a source that delivers its content from the byte it is asked for, what lands at a fresh
path is always how the content begins, and all of it once the download succeeds. -/
theorem download_file (U : UrlRules) (answers : ℕ → ℕ → HopAnswer) (transfers : ℕ → HttpResponse → ℕ → Transfer)
    (url : String) (headers : Headers) (content : Bytes) (hhonest : Honest content transfers) :
    let run := download U answers transfers url headers none
    (∀ b, run.file = some b → b <+: content) ∧ (run.result = .ok () → run.file = some content) := by
  have hfresh : Partly content none := by
    intro b hb
    cases hb
  unfold download
  cases U.parse url with
  | none => exact ⟨hfresh, fun h => by cases h⟩
  | some source => exact file_downloadFrom U answers transfers source headers hhonest maxResumes 0 hfresh

namespace DownloadSample

def origin : WebUrl := ⟨"https:", "media.example", "https://media.example", "https://media.example/audio"⟩

def rules : UrlRules := ⟨fun _ => some origin, fun _ _ => some origin, fun _ => none⟩

/-- The first response breaks off after two of three bytes, the second continues there. -/
def answers (attempt _hop : ℕ) : HopAnswer :=
  .response (if attempt = 0 then ⟨200, none, none⟩ else ⟨206, none, some "bytes 2-2/3"⟩)

def transfers (_attempt : ℕ) (_response : HttpResponse) (written : ℕ) : Transfer :=
  ⟨[1, 2, 3].drop written, decide (0 < written), true, 2, false, "aborted"⟩

theorem honest : Honest [1, 2, 3] transfers :=
  fun _ _ _ _ => ⟨List.prefix_rfl, fun _ => rfl⟩

example : (download rules answers transfers "" .empty none).file = some [1, 2, 3] := by decide +kernel

end DownloadSample

theorem download_file_three :
    let run := download DownloadSample.rules DownloadSample.answers DownloadSample.transfers "" .empty none
    (∀ b, run.file = some b → b <+: [1, 2, 3]) ∧ (run.result = .ok () → run.file = some [1, 2, 3]) :=
  download_file DownloadSample.rules DownloadSample.answers DownloadSample.transfers "" .empty [1, 2, 3]
    DownloadSample.honest

end RecordNode
