import Ankusa.Lib.Run
import Ankusa.Lib.Scan
import Ankusa.Store.Keys
import Mathlib.Data.List.Sort
import Mathlib.Tactic.Linarith

set_option autoImplicit false

/-! # Archive replay

An archive replay job (`dispatch/replayer.ex`) commits the hooks of archived segments again. It
walks the catalogue in the order of `first_seq`, one segment at a time; a page takes at most `n`
hooks of the segment, and its cursor is the segment's `first_seq` with the offset of the next entry,
or `:done`. The entries of the segment being walked are kept in the process only.

`load_segment` asks the catalogue for the segment *after* the cursor's whenever nothing is cached.
So the cursor resumes the right segment only while the cache is there: when the process restarts
with its cursor inside a segment, or the write of a segment's last page fails (the cache is dropped
before the write), the rest of that segment is passed over and the offset is applied to the next
one. `done_handed_once` is what a finished job has handed to the writer when neither happens. -/

namespace Ankusa.Replay.Archive

open Option List Run

/-! ## Ids, segments and records -/

/-- An id is the number its 32 hex digits spell; ids of one length compare as their texts do. -/
abbrev Id := Nat

/-- The lowest and the highest UUIDv7 with the time `ms`: 48 bits of time, the version 7, 12 bits,
the variant 2, 62 bits. -/
def minFor (ms : Nat) : Id := ms * 2 ^ 80 + 7 * 2 ^ 76 + 2 * 2 ^ 62

/-- The last id of a millisecond. -/
def maxFor (ms : Nat) : Id :=
  ms * 2 ^ 80 + 7 * 2 ^ 76 + (2 ^ 12 - 1) * 2 ^ 64 + 2 * 2 ^ 62 + (2 ^ 62 - 1)

/-- The time of an id, if it is a UUIDv7. -/
def timestampMs (id : Id) : Option Nat :=
  if id / 2 ^ 76 % 16 = 7 ∧ id / 2 ^ 62 % 4 = 2 ∧ id < 2 ^ 128 then some (id / 2 ^ 80) else none

variable {id ms : Nat}

section

variable (h : timestampMs id = some ms)
include h

/-- The fields of a UUIDv7. -/
theorem exists_of_timestampMs : ∃ a b, a < 2 ^ 12 ∧ b < 2 ^ 62 ∧
      id = ms * 2 ^ 80 + 7 * 2 ^ 76 + a * 2 ^ 64 + 2 * 2 ^ 62 + b := by
  obtain ⟨⟨h₁, h₂, -⟩, rfl⟩ := guarded h
  refine ⟨id / 2 ^ 64 % 2 ^ 12, id % 2 ^ 62, Nat.mod_lt _ (by norm_num),
    Nat.mod_lt _ (by norm_num), ?_⟩
  have e₁ := Nat.div_add_mod id (2 ^ 62)
  have e₂ := Nat.div_add_mod (id / 2 ^ 62) 4
  have e₃ := Nat.div_add_mod (id / 2 ^ 64) (2 ^ 12)
  have e₄ := Nat.div_add_mod (id / 2 ^ 76) 16
  rw [Nat.div_div_eq_div_mul, show 2 ^ 62 * 4 = 2 ^ 64 by norm_num, h₂] at e₂
  rw [Nat.div_div_eq_div_mul, show 2 ^ 64 * 2 ^ 12 = 2 ^ 76 by norm_num] at e₃
  rw [Nat.div_div_eq_div_mul, show 2 ^ 76 * 16 = 2 ^ 80 by norm_num, h₁] at e₄
  generalize id / 2 ^ 80 = t at *
  generalize id / 2 ^ 76 = u at *
  generalize id / 2 ^ 64 % 2 ^ 12 = a at *
  generalize id / 2 ^ 64 = v at *
  generalize id / 2 ^ 62 = w at *
  generalize id % 2 ^ 62 = b at *
  subst e₄ e₃ e₂
  linarith

theorem minFor_le {lo : Nat} (hle : lo ≤ ms) : minFor lo ≤ id := by
  obtain ⟨a, b, -, -, rfl⟩ := exists_of_timestampMs h
  calc minFor lo ≤ ms * 2 ^ 80 + 7 * 2 ^ 76 + 2 * 2 ^ 62 := by
        simp only [minFor]
        gcongr
    _ ≤ ms * 2 ^ 80 + 7 * 2 ^ 76 + a * 2 ^ 64 + 2 * 2 ^ 62 :=
      Nat.add_le_add_right (Nat.le_add_right _ _) _
    _ ≤ ms * 2 ^ 80 + 7 * 2 ^ 76 + a * 2 ^ 64 + 2 * 2 ^ 62 + b := Nat.le_add_right _ _

theorem le_maxFor {hi : Nat} (hle : ms ≤ hi) : id ≤ maxFor hi := by
  obtain ⟨a, b, ha, hb, rfl⟩ := exists_of_timestampMs h
  have ha' : a ≤ 2 ^ 12 - 1 := Nat.le_sub_one_of_lt ha
  have hb' : b ≤ 2 ^ 62 - 1 := Nat.le_sub_one_of_lt hb
  simp only [maxFor]
  gcongr

end

/-- What a replay reads of an archived hook. -/
structure Rec where
  receivedAt : Nat
  sourceId : String
  tenantId : Option String
deriving DecidableEq, Repr

/-- An entry of a segment's index with the record its frame decodes to, if it does. -/
structure Frame where
  id : Id
  offset : Nat
  length : Nat
  record : Option Rec
deriving DecidableEq, Repr

/-- A catalogue row with the objects it names: `none` when they are gone or do not verify. -/
structure Segment where
  firstSeq : Nat
  minId : Id
  maxId : Id
  count : Nat
  object : Option (List Frame)

/-- The window and the filter of a job. -/
structure Filter where
  from_ : Nat
  to_ : Nat
  sourceId : Option String
  tenants : Option (List String)

/-- The first catalogue row after `afterFirstSeq` whose ids overlap the window. -/
def nextSegment (catalogue : List Segment) (afterFirstSeq : Nat) (minId maxId : Id) :
    Option Segment :=
  catalogue.find? fun row =>
    decide (afterFirstSeq < row.firstSeq) &&
      (decide (minId ≤ row.maxId) && decide (row.minId ≤ maxId))

/-- The first id a hook of the window can have. -/
def Filter.minId (filter : Filter) : Id := minFor (filter.from_ - 1000)

/-- The last id a hook of the window can have. -/
def Filter.maxId (filter : Filter) : Id := maxFor (filter.to_ + 1000)

/-- The entries of an index whose ids fall in the window, one second wider, by offset. -/
def windowEntries (index : List Frame) (filter : Filter) : List Frame :=
  (index.filter fun f => (timestampMs f.id).any fun ms =>
    decide (filter.from_ ≤ ms + 1000) && decide (ms ≤ filter.to_ + 1000)).insertionSort
      fun a b => a.offset ≤ b.offset

/-- The hook is of the source the job asks for, if it asks for one. -/
def matchesSource (filter : Filter) (sourceId : String) : Bool :=
  filter.sourceId.all fun expected => decide (expected = sourceId)

/-- The hook is of a tenant the job asks for, if it asks for some. -/
def matchesTenant (filter : Filter) (tenantId : Option String) : Bool :=
  filter.tenants.all fun tenants => decide (tenantId.getD "default" ∈ tenants)

/-- The tombstone of `tenant` is not older than `receivedAt`. -/
def erasedAfter {τ : Type} [LE τ] [DecidableLE τ] (erased : List (String × τ)) (tenant : String)
    (receivedAt : τ) : Bool :=
  (erased.lookup tenant).any fun time => decide (receivedAt ≤ time)

/-- What becomes of an entry. -/
inductive Verdict where
  | keep | unusable | skip
deriving DecidableEq, Repr

/-- Decode an entry and put it to the filter. -/
def decodeEntry (filter : Filter) (erased : List (String × Nat)) (f : Frame) : Verdict :=
  match f.record with
  | none => .unusable
  | some r =>
    if r.receivedAt < filter.from_ ∨ filter.to_ < r.receivedAt then .skip
    else if !matchesSource filter r.sourceId then .skip
    else if !matchesTenant filter r.tenantId then .skip
    else if erasedAfter erased (r.tenantId.getD "default") r.receivedAt then .unusable
    else .keep

/-! ## The job -/

/-- Where the job stands: nowhere yet, at an offset of a segment, or past a segment. -/
inductive Cursor where
  | start
  | inside (firstSeq offset : Nat)
  | done (firstSeq : Nat)
deriving DecidableEq, Repr

/-- The segment after which the next one is looked for. -/
def Cursor.afterFirstSeq : Cursor → Nat
  | .start => 0
  | .inside fs _ => fs
  | .done fs => fs

/-- Where in its segment the next page starts. -/
def Cursor.offset0 : Cursor → Nat
  | .inside _ offset => offset
  | .start | .done _ => 0

/-- The cursor stands inside a segment. -/
def Cursor.isInside : Cursor → Bool
  | .inside _ _ => true
  | .start | .done _ => false

/-- The states of a job that matter here. -/
inductive Status where
  | running | done
deriving DecidableEq, Repr

/-- The job row. -/
structure Job where
  filter : Filter
  cursor : Cursor
  status : Status
  moved : Nat
  skipped : Nat
  scanned : Nat

/-- The segment being walked, as the process remembers it. -/
structure Cache where
  row : Segment
  entries : List Frame

/-- What `load_segment` comes back with. -/
inductive Loaded where
  | ok (cache : Cache)
  | finished
  | skip (row : Segment)
  | error
  /-- `{fs, _offset} = job.cursor` does not match: the process dies. -/
  | crash

/-- Fetch the index of a segment; one that is gone is skipped. -/
def fetchSegment (filter : Filter) (readable : Bool) (row : Segment) : Loaded :=
  if readable then
    match row.object with
    | none => .skip row
    | some index => .ok { row := row, entries := windowEntries index filter }
  else .error

/-- The next segment of the catalogue that meets the window. -/
def loadNext (catalogue : List Segment) (filter : Filter) (readable : Bool) (afterFirstSeq : Nat) :
    Loaded :=
  match nextSegment catalogue afterFirstSeq filter.minId filter.maxId with
  | none => if readable then .finished else .error
  | some row => fetchSegment filter readable row

/-- The cached segment, or the next one after the cursor. -/
def loadSegment (catalogue : List Segment) (readable : Bool) (job : Job) : Option Cache → Loaded
  | none => loadNext catalogue job.filter readable job.cursor.afterFirstSeq
  | some c =>
    if c.entries ≠ [] then .ok c
    else if job.cursor = .start then .crash
    else loadNext catalogue job.filter readable job.cursor.afterFirstSeq

/-- A page of a segment, as the walk over its entries gathers it. -/
structure Page where
  kept : List Frame
  skipped : Nat
  scanned : Nat
  doneAll : Bool
  lastOffset : Nat

/-- The page loop over the entries of a segment. -/
def redriveFrom (filter : Filter) (erased : List (String × Nat)) (n offset0 : Nat) :
    List Frame → Page → Page
  | [], acc => acc
  | f :: fs, acc =>
    -- entries before the cursor were handled by an earlier page
    if f.offset < offset0 then
      redriveFrom filter erased n offset0 fs { acc with lastOffset := offset0 }
    -- the page is full: the next one resumes at this entry
    else if n ≤ acc.kept.length then { acc with doneAll := false, lastOffset := f.offset }
    else
      let acc := { acc with scanned := acc.scanned + 1, lastOffset := f.offset + f.length }
      match decodeEntry filter erased f with
      | .keep => redriveFrom filter erased n offset0 fs { acc with kept := f :: acc.kept }
      | .unusable => redriveFrom filter erased n offset0 fs { acc with skipped := acc.skipped + 1 }
      | .skip => redriveFrom filter erased n offset0 fs acc

/-- A page of at most `n` hooks from `offset0` on. -/
def redriveEntries (filter : Filter) (erased : List (String × Nat)) (n offset0 : Nat)
    (entries : List Frame) : Page :=
  redriveFrom filter erased n offset0 entries
    { kept := [], skipped := 0, scanned := 0, doneAll := true, lastOffset := offset0 }

/-- What the source store answers for a kept hook: some sink selects it, none does (or the source is
gone), or it cannot say. -/
inductive Route where
  | selected | unbound | unavailable
deriving DecidableEq, Repr

/-- The kept hooks some sink selects, last one first, and how many are skipped; `none` when the
source store cannot answer. -/
def resolveArchiveEntries (route : Rec → Route) :
    List Frame → List Frame → Nat → Option (List Frame × Nat)
  | [], entries, skipped => some (entries, skipped)
  | f :: fs, entries, skipped =>
    match f.record.map route with
    | some .selected => resolveArchiveEntries route fs (f :: entries) skipped
    | some .unavailable => none
    | some .unbound | none => resolveArchiveEntries route fs entries (skipped + 1)

/-! ## Runs -/

/-- A hook of the archive: its segment's `first_seq` and its offset there. -/
abbrev Hook := Nat × Nat

/-- The stored job record, the process's copy and its cached segment, and the hooks of every page
the writer committed so far. -/
structure State where
  stored : Job
  job : Job
  cache : Option Cache
  pages : List (List Hook)

/-- What a tick reads of its surroundings. -/
structure World where
  /-- The catalogue and the segment's objects can be read. -/
  readable : Bool
  /-- The tombstones of erased tenants, unless they cannot be read. -/
  erased : Option (List (String × Nat))
  route : Rec → Route

/-- A write is made, or fails, or is made while the caller sees it fail. -/
inductive Outcome where
  | ok | failed | lost
deriving DecidableEq, Repr

/-- A tick that may write at most `n` hooks, or a restart. -/
inductive Event where
  | tick (n : Nat) (w : World) (outcome : Outcome)
  | restart

/-- The hooks of a page and the job's new record are one batch. -/
def commit (s : State) (job : Job) (hooks : List Hook) (cache : Option Cache) : Outcome → State
  | .ok => { stored := job, job := job, cache := cache, pages := s.pages ++ [hooks] }
  | .failed => { s with cache := cache }
  | .lost => { s with stored := job, cache := cache, pages := s.pages ++ [hooks] }

/-- The hooks of some entries of a segment. -/
def hooksOf (row : Segment) (frames : List Frame) : List Hook :=
  frames.map fun f => (row.firstSeq, f.offset)

/-- Write a page, with the cursor behind it. -/
def writeArchive (s : State) (c : Cache) (entries : List Frame) (skipped : Nat) (page : Page)
    (outcome : Outcome) : State :=
  let job := { s.job with
    cursor := if page.doneAll then .done c.row.firstSeq else .inside c.row.firstSeq page.lastOffset
    moved := s.job.moved + entries.length
    skipped := s.job.skipped + skipped
    scanned := s.job.scanned + page.scanned }
  commit s job (hooksOf c.row entries) (if page.doneAll then none else some c) outcome

/-- A page of the segment at hand; a failed read leaves the job as it is. -/
def redriveSegment (s : State) (c : Cache) (n : Nat) (w : World) (outcome : Outcome) : State :=
  match w.erased with
  | none => { s with cache := some c }
  | some erased =>
    let page := redriveEntries s.job.filter erased n s.job.cursor.offset0 c.entries
    match resolveArchiveEntries w.route page.kept.reverse [] page.skipped with
    | none => { s with cache := some c }
    | some (entries, skipped) => writeArchive s c entries skipped page outcome

/-- Nothing is left: the job is done. -/
def finishJob (s : State) (outcome : Outcome) : State :=
  commit s { s.job with status := .done } [] s.cache outcome

/-- A segment that is gone is counted and passed. -/
def advanceSkipped (s : State) (row : Segment) (outcome : Outcome) : State :=
  commit s { s.job with cursor := .done row.firstSeq, skipped := s.job.skipped + row.count } [] none
    outcome

/-- The step function of a job over a catalogue. A tick that kills the process is not one: it is the
`restart` that follows. -/
def step (catalogue : List Segment) (s : State) : Event → Option State
  | .tick n w outcome =>
    if s.job.status = .running ∧ 1 ≤ n then
      match loadSegment catalogue w.readable s.job s.cache with
      | .ok c => some (redriveSegment s c n w outcome)
      | .finished => some (finishJob s outcome)
      | .skip row => some (advanceSkipped s row outcome)
      | .error => some s
      | .crash => none
    else none
  | .restart => some { s with job := s.stored, cache := none }

/-- A job as it is created. -/
structure Created (s : State) : Prop where
  stored : s.stored = s.job
  cursor : s.job.cursor = .start
  status : s.job.status = .running
  cache : s.cache = none
  pages : s.pages = []

/-- A catalogue as the archiver writes it: in the order of `first_seq`, every segment with the range
of its ids and no two entries at one offset, and a hook's id minted within a second of its
receipt. -/
structure Catalogued (catalogue : List Segment) : Prop where
  sorted : Scan.Sorted Segment.firstSeq catalogue
  positive : ∀ row ∈ catalogue, 0 < row.firstSeq
  range : ∀ row ∈ catalogue, ∀ index ∈ row.object, ∀ f ∈ index, row.minId ≤ f.id ∧ f.id ≤ row.maxId
  offsets : ∀ row ∈ catalogue, ∀ index ∈ row.object, (index.map Frame.offset).Nodup
  times : ∀ row ∈ catalogue, ∀ index ∈ row.object, ∀ f ∈ index, ∀ r ∈ f.record,
    ∃ ms, timestampMs f.id = some ms ∧ ms ≤ r.receivedAt + 1000 ∧ r.receivedAt ≤ ms + 1000

/-! ## What the job has to hand over -/

/-- The job has to hand over the hook of frame `f`: it was received in the window and is of a source
and a tenant the filter names. -/
structure Owed (catalogue : List Segment) (filter : Filter) (row : Segment) (f : Frame) (r : Rec) :
    Prop where
  mem : row ∈ catalogue
  index : ∃ index ∈ row.object, f ∈ index
  record : f.record = some r
  window : filter.from_ ≤ r.receivedAt ∧ r.receivedAt ≤ filter.to_
  source : matchesSource filter r.sourceId = true
  tenant : matchesTenant filter r.tenantId = true

/-- The tick finds the hook's tenant not erased and does not find it without a sink. -/
def Routed (r : Rec) (_ : State) : Event → Prop
  | .tick _ w _ =>
    (∀ erased ∈ w.erased, erasedAfter erased (r.tenantId.getD "default") r.receivedAt = false) ∧
      w.route r ≠ .unbound
  | .restart => True

instance (r : Rec) (s : State) (e : Event) : Decidable (Routed r s e) := by
  cases e <;> unfold Routed <;> infer_instance

/-- The hooks to keep among the entries from `offset0` on fill a page before the last of them. -/
def fillsPage (filter : Filter) (erased : List (String × Nat)) (n offset0 : Nat)
    (entries : List Frame) : Bool :=
  decide (n ≤ ((entries.filter fun f => decide (offset0 ≤ f.offset)).dropLast.filter fun f =>
    decide (decodeEntry filter erased f = .keep)).length)

/-- While the cursor stands inside a segment the process does not restart, and a page that reaches
the end of that segment is written. -/
def Unbroken (s : State) : Event → Prop
  | .tick n w outcome =>
    s.job.cursor.isInside = false ∨ outcome = .ok ∨
      s.cache.any (fun c => fillsPage s.job.filter
        (w.erased.getD []) n s.job.cursor.offset0 c.entries) = true
  | .restart => s.stored.cursor.isInside = false

instance (s : State) (e : Event) : Decidable (Unbroken s e) := by
  cases e <;> unfold Unbroken <;> infer_instance

section Catalogue

variable {catalogue : List Segment} {filter : Filter} {row : Segment} {f : Frame} {r : Rec}
  {index : List Frame} {next : Segment}

theorem sorted_windowEntries (h : (index.map Frame.offset).Nodup) :
    Scan.Sorted Frame.offset (windowEntries index filter) := by
  have : Std.Total fun a b : Frame => a.offset ≤ b.offset := ⟨fun a b => Nat.le_total _ _⟩
  have : IsTrans Frame fun a b => a.offset ≤ b.offset := ⟨fun _ _ _ => Nat.le_trans⟩
  have hle := pairwise_insertionSort (fun a b : Frame => a.offset ≤ b.offset)
    (index.filter fun f => (timestampMs f.id).any fun ms =>
      decide (filter.from_ ≤ ms + 1000) && decide (ms ≤ filter.to_ + 1000))
  have hne : (windowEntries index filter).Pairwise fun a b => a.offset ≠ b.offset := by
    have hnodup : ((windowEntries index filter).map Frame.offset).Nodup := by
      refine (List.Perm.nodup_iff ((perm_insertionSort _ _).map _)).2 ?_
      exact (filter_sublist.map _).nodup h
    simpa [List.Nodup, pairwise_map] using hnodup
  exact hle.imp₂ (fun a b h₁ h₂ => lt_of_le_of_ne h₁ h₂) hne

variable {a : Nat}

section

variable (hcat : Catalogued catalogue) (ho : Owed catalogue filter row f r)
include hcat ho

theorem Owed.timestamp : ∃ ms, timestampMs f.id = some ms ∧ filter.from_ ≤ ms + 1000 ∧
    ms ≤ filter.to_ + 1000 := by
  obtain ⟨index, hindex, hf⟩ := ho.index
  obtain ⟨ms, hms, h₁, h₂⟩ := hcat.times row ho.mem index hindex f hf r ho.record
  have := ho.window
  exact ⟨ms, hms, by omega, by omega⟩

theorem Owed.mem_windowEntries (hindex : row.object = some index) :
    f ∈ windowEntries index filter := by
  obtain ⟨index', hindex', hf⟩ := ho.index
  obtain rfl : index' = index := some.inj (hindex'.symm.trans hindex)
  obtain ⟨ms, hms, h₁, h₂⟩ := ho.timestamp hcat
  refine (mem_insertionSort _).2 (mem_filter.2 ⟨hf, ?_⟩)
  simp [hms, h₁, h₂]

/-- A segment with a hook to hand over overlaps the window. -/
theorem Owed.overlaps : filter.minId ≤ row.maxId ∧ row.minId ≤ filter.maxId := by
  obtain ⟨index, hindex, hf⟩ := ho.index
  obtain ⟨ms, hms, h₁, h₂⟩ := ho.timestamp hcat
  have hrange := hcat.range row ho.mem index hindex f hf
  exact ⟨(minFor_le hms (by omega)).trans hrange.2, hrange.1.trans (le_maxFor hms h₂)⟩

/-- No segment with a hook to hand over lies between the cursor and the segment the catalogue names
next. -/
theorem Owed.le_or_le_of_nextSegment
    (h : nextSegment catalogue a filter.minId filter.maxId = some next) :
    row.firstSeq ≤ a ∨ next.firstSeq ≤ row.firstSeq := by
  obtain ⟨-, before, after, rfl, hbefore⟩ := List.find?_eq_some_iff_append.1 h
  have hover := ho.overlaps hcat
  rcases mem_append.1 ho.mem with hrow | hrow
  · refine .inl (not_lt.1 fun hlt => ?_)
    simpa [hlt, hover] using hbefore row hrow
  · rcases mem_cons.1 hrow with rfl | hrow
    · exact .inr le_rfl
    · have hs : Scan.Sorted Segment.firstSeq ((before ++ [next]) ++ after) := by
        simpa using hcat.sorted
      exact .inr (hs.lt_of_append (by simp) hrow).le

theorem Owed.le_of_nextSegment_none (h : nextSegment catalogue a filter.minId filter.maxId = none) :
    row.firstSeq ≤ a := by
  have hover := ho.overlaps hcat
  refine not_lt.1 fun hlt => ?_
  simpa [hlt, hover] using List.find?_eq_none.1 h row ho.mem

end

theorem lt_of_nextSegment (h : nextSegment catalogue a filter.minId filter.maxId = some next) :
    a < next.firstSeq := by
  have := List.find?_some h
  simp only [Bool.and_eq_true, decide_eq_true_eq] at this
  exact this.1

end Catalogue

/-! ## What a page holds -/

attribute [local simp] redriveFrom commit writeArchive

section Page

variable {filter : Filter} {erased : List (String × Nat)} {n offset0 : Nat}

variable (filter erased n offset0) in
/-- The walk deals with the entries from `offset0` on up to the first one a full page leaves, and
keeps those of them that pass. -/
theorem redriveFrom_spec (fs : List Frame) (acc : Page) (hacc : acc.doneAll = true) :
    ∃ dealt left, fs.filter (fun f => decide (offset0 ≤ f.offset)) = dealt ++ left ∧
      (redriveFrom filter erased n offset0 fs acc).kept =
        (dealt.filter fun f => decide (decodeEntry filter erased f = .keep)).reverse ++ acc.kept ∧
      ((redriveFrom filter erased n offset0 fs acc).doneAll = true ↔ left = []) ∧
      ∀ x xs, left = x :: xs → (redriveFrom filter erased n offset0 fs acc).lastOffset =
      x.offset := by
  induction fs generalizing acc with
  | nil => exact ⟨[], [], rfl, rfl, by simp [hacc], by simp⟩
  | cons f fs ih =>
    by_cases hbefore : f.offset < offset0
    · obtain ⟨dealt, left, hsplit, hrest⟩ := ih { acc with lastOffset := offset0 } hacc
      refine ⟨dealt, left, ?_, ?_⟩
      · rw [filter_cons_of_neg (by simpa using hbefore), hsplit]
      · simpa only [redriveFrom, if_pos hbefore] using hrest
    · have hfrom : offset0 ≤ f.offset := not_lt.1 hbefore
      by_cases hfull : n ≤ acc.kept.length
      · -- the page is full, so this entry and all after it are left
        refine ⟨[], f :: fs.filter (fun f => decide (offset0 ≤ f.offset)), ?_, ?_, ?_, ?_⟩
        · rw [filter_cons_of_pos (by simpa using hfrom), nil_append]
        · simp [hbefore, hfull]
        · simp [hbefore, hfull]
        · rintro x xs hx
          obtain ⟨rfl, -⟩ := List.cons.inj hx
          simp [hbefore, hfull]
      · obtain ⟨acc', hdone, heq, hkept⟩ : ∃ acc' : Page, acc'.doneAll = true ∧
            redriveFrom filter erased n offset0 (f :: fs) acc =
              redriveFrom filter erased n offset0 fs acc' ∧
            acc'.kept = ([f].filter fun f => decide (decodeEntry filter erased f = .keep)) ++
                acc.kept := by
          cases hverdict : decodeEntry filter erased f
          · exact ⟨{ acc with
              scanned := acc.scanned + 1, lastOffset := f.offset + f.length,
              kept := f :: acc.kept },
              hacc, by simp [hbefore, hfull, hverdict], by simp [hverdict]⟩
          · exact ⟨{ acc with
              scanned := acc.scanned + 1, lastOffset := f.offset + f.length,
              skipped := acc.skipped + 1 },
              hacc, by simp [hbefore, hfull, hverdict], by simp [hverdict]⟩
          · exact ⟨{ acc with scanned := acc.scanned + 1, lastOffset := f.offset + f.length },
              hacc, by simp [hbefore, hfull, hverdict], by simp [hverdict]⟩
        obtain ⟨dealt, left, hsplit, hk, hrest⟩ := ih acc' hdone
        refine ⟨f :: dealt, left, ?_, ?_, heq ▸ hrest⟩
        · rw [filter_cons_of_pos (by simpa using hfrom), hsplit, cons_append]
        · rw [heq, hk, hkept, ← append_assoc, append_cancel_right_eq]
          by_cases hkeep : decodeEntry filter erased f = .keep <;> simp [hkeep]

variable (filter erased n offset0) in
/-- When the hooks to keep before the last entry fill the page, the page does not reach the end. -/
theorem doneAll_eq_false_of_fills (fs : List Frame) (acc : Page)
    (hne : fs.filter (fun f => decide (offset0 ≤ f.offset)) ≠ []) (h : n ≤ acc.kept.length +
      ((fs.filter fun f => decide (offset0 ≤ f.offset)).dropLast.filter fun f =>
        decide (decodeEntry filter erased f = .keep)).length) :
    (redriveFrom filter erased n offset0 fs acc).doneAll = false := by
  induction fs generalizing acc with
  | nil => exact absurd rfl hne
  | cons f fs ih =>
    by_cases hbefore : f.offset < offset0
    · rw [filter_cons_of_neg (by simpa using hbefore)] at h hne
      simpa only [redriveFrom, if_pos hbefore] using ih { acc with lastOffset := offset0 } hne h
    by_cases hfull : n ≤ acc.kept.length
    · simp [hbefore, hfull]
    rw [filter_cons_of_pos (by simpa using hbefore)] at h
    -- an entry follows, or the page would not be full before the last one
    have hnext : fs.filter (fun f => decide (offset0 ≤ f.offset)) ≠ [] := by
      intro hnil
      simp only [hnil, dropLast_singleton, filter_nil, length_nil] at h
      omega
    rw [dropLast_cons_of_ne_nil hnext, filter_cons] at h
    cases hverdict : decodeEntry filter erased f
    all_goals
      simp only [redriveFrom, if_neg hbefore, if_neg hfull, hverdict]
      simp only [hverdict] at h
      refine ih _ hnext ?_
      simpa [Nat.add_comm, Nat.add_left_comm, Nat.add_assoc] using h

theorem resolveArchiveEntries_eq_some {route : Rec → Route} {fs acc : List Frame} {skipped : Nat}
    {entries : List Frame} {k : Nat}
    (h : resolveArchiveEntries route fs acc skipped = some (entries, k)) :
    entries = (fs.filter fun f => decide (f.record.map route = some .selected)).reverse ++ acc ∧
      ∀ f ∈ fs, f.record.map route ≠ some .unavailable := by
  induction fs generalizing acc skipped with
  | nil =>
    obtain ⟨rfl, -⟩ := Prod.mk.inj (some.inj h)
    simp
  | cons f fs ih =>
    simp only [resolveArchiveEntries] at h
    split at h
    next hroute =>
      obtain ⟨heq, hall⟩ := ih h
      refine ⟨?_, forall_mem_cons.2 ⟨hroute ▸ by decide, hall⟩⟩
      rw [heq, filter_cons_of_pos (by rw [hroute]; decide)]
      simp only [reverse_cons, append_assoc, cons_append, nil_append]
    next => cases h
    all_goals
      next hroute =>
        obtain ⟨heq, hall⟩ := ih h
        refine ⟨?_, forall_mem_cons.2 ⟨hroute ▸ by decide, hall⟩⟩
        rw [heq, filter_cons_of_neg (by rw [hroute]; decide)]

end Page

/-! ## Where the job stands -/

/-- The cursor has left the hook behind. -/
def Cursor.Passed : Cursor → Hook → Prop
  | .start, _ => False
  | .inside fs offset, h => h.1 < fs ∨ (h.1 = fs ∧ h.2 < offset)
  | .done fs, h => h.1 ≤ fs

/-- The cached segment is the one the cursor points into, or the next one after it. -/
def At (catalogue : List Segment) (filter : Filter) (cursor : Cursor) (c : Cache) : Prop :=
  c.row ∈ catalogue ∧
    (∃ index, c.row.object = some index ∧ c.entries = windowEntries index filter) ∧
    match cursor with
    | .inside fs offset => c.row.firstSeq = fs ∧ ∃ f ∈ c.entries, f.offset = offset
    | .start | .done _ =>
      nextSegment catalogue cursor.afterFirstSeq filter.minId filter.maxId = some c.row

/-- The filter does not change, a cached segment is the cursor's, and a cursor inside a segment has
that segment cached. -/
structure Placed (catalogue : List Segment) (filter : Filter) (s : State) : Prop where
  jobFilter : s.job.filter = filter
  storedFilter : s.stored.filter = filter
  cached : ∀ c, s.cache = some c → At catalogue filter s.job.cursor c
  inside : s.job.cursor.isInside = true → s.cache.isSome = true

/-- A page of the cached segment from the cursor on. -/
abbrev Cache.page (c : Cache) (filter : Filter) (erased : List (String × Nat)) (n : Nat)
    (cursor : Cursor) : Page :=
  redriveEntries filter erased n cursor.offset0 c.entries

/-- The cursor after a page of the cached segment. -/
def Page.cursor (page : Page) (c : Cache) : Cursor :=
  if page.doneAll then .done c.row.firstSeq else .inside c.row.firstSeq page.lastOffset

section Placed

variable {catalogue : List Segment} {filter : Filter} {cursor : Cursor} {c : Cache} {row : Segment}

/-- A cursor between segments has passed the hooks of those before it. -/
theorem passed_of_le (hcat : Catalogued catalogue) (hrow : row ∈ catalogue)
    (hcursor : cursor.isInside = false)
    (hle : row.firstSeq ≤ cursor.afterFirstSeq) (offset : Nat) :
    cursor.Passed (row.firstSeq, offset) := by
  cases cursor with
  | inside => cases hcursor
  | start => exact absurd hle (not_le.2 (hcat.positive row hrow))
  | done => exact hle

theorem at_of_nextSegment {index : List Frame} (hcursor : cursor.isInside = false)
    (hnext : nextSegment catalogue cursor.afterFirstSeq filter.minId filter.maxId = some row)
    (hindex : row.object = some index) :
    At catalogue filter cursor { row := row, entries := windowEntries index filter } := by
  refine ⟨mem_of_find?_eq_some hnext, ⟨index, hindex, rfl⟩, ?_⟩
  cases cursor with
  | inside => cases hcursor
  | start | done => exact hnext

theorem At.ne_nil (hat : At catalogue filter cursor c) (hin : cursor.isInside = true) :
    c.entries ≠ [] := by
  cases cursor with
  | inside =>
    obtain ⟨-, -, -, f, hf, -⟩ := hat
    exact ne_nil_of_mem hf
  | start | done => cases hin

/-- What a tick finds to do: a page of the cursor's segment, a segment whose objects are gone, the
end of the catalogue, or nothing. -/
def Finds (catalogue : List Segment) (filter : Filter) (cursor : Cursor) (l : Loaded) : Prop :=
  (∃ c, l = .ok c ∧ At catalogue filter cursor c) ∨
  (∃ row, l = .skip row ∧ cursor.isInside = false ∧ row.object = none ∧
    nextSegment catalogue cursor.afterFirstSeq filter.minId filter.maxId = some row) ∨
  (l = .finished ∧ cursor.isInside = false ∧
    nextSegment catalogue cursor.afterFirstSeq filter.minId filter.maxId = none) ∨
      l = .error ∨ l = .crash

/-- The next segment, for a cursor that is not inside one. -/
theorem loadNext_finds (hcursor : cursor.isInside = false) (readable : Bool) :
    Finds catalogue filter cursor (loadNext catalogue filter readable cursor.afterFirstSeq) := by
  unfold loadNext
  cases hnext : nextSegment catalogue cursor.afterFirstSeq filter.minId filter.maxId with
  | none => cases readable <;> simp [Finds, hcursor, hnext]
  | some row =>
    cases readable with
    | false => simp [Finds, fetchSegment]
    | true =>
      cases hobject : row.object with
      | none => exact .inr (.inl ⟨row, by simp [fetchSegment, hobject], hcursor, hobject, hnext⟩)
      | some =>
        exact .inl ⟨_, by simp [fetchSegment, hobject], at_of_nextSegment hcursor hnext hobject⟩

theorem loadSegment_finds {s : State} (hs : Placed catalogue filter s) (readable : Bool) :
    Finds catalogue filter s.job.cursor (loadSegment catalogue readable s.job s.cache) := by
  have hload : s.job.cursor.isInside = false → Finds catalogue filter s.job.cursor
      (loadNext catalogue s.job.filter readable s.job.cursor.afterFirstSeq) := fun hcursor =>
    hs.jobFilter ▸ loadNext_finds hcursor readable
  cases hcache : s.cache with
  | none =>
    refine hload (Bool.eq_false_iff.2 fun hin => ?_)
    have := hs.inside hin
    simp [hcache] at this
  | some c =>
    have hat := hs.cached c hcache
    by_cases hne : c.entries = []
    · -- nothing of the segment is in the window, so the cursor is not inside it
      have hcursor : s.job.cursor.isInside = false :=
        Bool.eq_false_iff.2 fun hin => hat.ne_nil hin hne
      by_cases hstart : s.job.cursor = .start
      · simp [Finds, loadSegment, hne, hstart]
      · simp only [loadSegment, hne, if_neg hstart, ne_eq, not_true_eq_false, if_false]
        exact hload hcursor
    · exact .inl ⟨c, by simp [loadSegment, hne], hat⟩

variable {erased : List (String × Nat)} {n : Nat} {route : Rec → Route} {entries : List Frame}
  {skipped : Nat}

variable (erased n) in
/-- A page of the segment at the cursor: it passes exactly the hooks it dealt with. -/
theorem exists_dealt (hcat : Catalogued catalogue) (hat : At catalogue filter cursor c) :
    Scan.Sorted Frame.offset c.entries ∧
    ∃ dealt left, c.entries.filter (fun f => decide (cursor.offset0 ≤ f.offset)) = dealt ++ left ∧
      (c.page filter erased n cursor).kept.reverse =
        dealt.filter (fun f => decide (decodeEntry filter erased f = .keep)) ∧
      ((c.page filter erased n cursor).doneAll = true ↔ left = []) ∧
      (∀ x xs, left = x :: xs →
        (c.page filter erased n cursor).lastOffset = x.offset) := by
  obtain ⟨hrow, ⟨index, hindex, hentries⟩, -⟩ := hat
  obtain ⟨dealt, left, hsplit, hkept, hdone, hlast⟩ :=
    redriveFrom_spec filter erased n cursor.offset0 c.entries
    { kept := [], skipped := 0, scanned := 0, doneAll := true, lastOffset := cursor.offset0 } rfl
  refine ⟨?_, dealt, left, hsplit, ?_, hdone, hlast⟩
  · rw [hentries]
    exact sorted_windowEntries (hcat.offsets c.row hrow index hindex)
  · rw [Cache.page, redriveEntries, hkept]
    simp

section

variable (hcat : Catalogued catalogue) (hat : At catalogue filter cursor c)
  (hres : resolveArchiveEntries route (c.page filter erased n cursor).kept.reverse []
    (c.page filter erased n cursor).skipped = some (entries, skipped))
include hcat hat hres

/-- A page hands over what it passes. -/
theorem passed_or_mem_hooksOf {f : Frame} {r : Rec} (ho : Owed catalogue filter row f r)
    (herased : erasedAfter erased (r.tenantId.getD "default") r.receivedAt = false)
    (hroute : route r ≠ .unbound) (hpassed : ((c.page filter erased n cursor).cursor c).Passed
      (row.firstSeq, f.offset)) :
    cursor.Passed (row.firstSeq, f.offset) ∨ (row.firstSeq, f.offset) ∈ hooksOf c.row entries := by
  obtain ⟨hsorted, dealt, left, hsplit, hkept, hdone, hlast⟩ := exists_dealt erased n hcat hat
  obtain ⟨hrow, ⟨index, hindex, hentries⟩, hplace⟩ := hat
  have hle : row.firstSeq ≤ c.row.firstSeq := by
    unfold Page.cursor at hpassed
    split at hpassed
    · exact hpassed
    · rcases hpassed with h | h
      · exact h.le
      · exact h.1.le
  rcases hle.lt_or_eq with hlt | heq
  · -- an earlier segment: the cursor had passed it already
    left
    cases cursor with
    | inside => exact .inl (hplace.1 ▸ hlt)
    | start | done =>
      have hafter := (ho.le_or_le_of_nextSegment hcat hplace).resolve_right (not_le.2 hlt)
      exact passed_of_le hcat ho.mem rfl hafter f.offset
  · obtain rfl := hcat.sorted.eq_of_key_eq ho.mem hrow heq
    have hf : f ∈ c.entries := hentries ▸ ho.mem_windowEntries hcat hindex
    by_cases hoff : cursor.offset0 ≤ f.offset
    · right
      -- the page has dealt with the entry and kept it
      have hdealt : f ∈ dealt := by
        have hmem : f ∈ dealt ++ left := hsplit ▸ mem_filter.2 ⟨hf, by simpa using hoff⟩
        unfold Page.cursor at hpassed
        split at hpassed
        next hall =>
          rw [hdone.1 hall, append_nil] at hmem
          exact hmem
        next hall =>
          obtain ⟨x, xs, rfl⟩ := exists_cons_of_ne_nil (fun hnil => hall (hdone.2 hnil))
          have hxoff := hlast x xs rfl
          have hs : Scan.Sorted Frame.offset (dealt ++ x :: xs) :=
            hsplit ▸ hsorted.sublist filter_sublist
          have hflt : f.offset < x.offset := by
            rcases hpassed with h | h
            · exact absurd h (lt_irrefl _)
            · exact hxoff ▸ h.2
          rcases mem_append.1 hmem with h | h
          · exact h
          · rcases mem_cons.1 h with rfl | h
            · exact absurd hflt (lt_irrefl _)
            · have := (pairwise_cons.1 (pairwise_append.1 hs).2.1).1 f h
              omega
      have hkeep : decodeEntry filter erased f = .keep := by
        have hw := ho.window
        simp only [decodeEntry, ho.record, ho.source, ho.tenant, herased]
        rw [if_neg (by omega)]
        simp
      obtain ⟨hent, hall⟩ := resolveArchiveEntries_eq_some hres
      have hmem : f ∈ (c.page filter erased n cursor).kept.reverse := by
        rw [hkept]
        exact mem_filter.2 ⟨hdealt, decide_eq_true hkeep⟩
      have hsel : f.record.map route = some .selected := by
        have hno := hall f hmem
        rw [ho.record, map_some] at hno ⊢
        cases hr : route r
        · rfl
        · exact absurd hr hroute
        · exact absurd (congrArg some hr) hno
      refine mem_map.2 ⟨f, ?_, rfl⟩
      rw [hent, append_nil, mem_reverse]
      exact mem_filter.2 ⟨hmem, decide_eq_true hsel⟩
    · left
      cases cursor with
      | inside => exact .inr ⟨hplace.1, not_le.1 hoff⟩
      | start | done => exact absurd (Nat.zero_le _) hoff

/-- Every hook of a page lies between the old cursor and the new one, and none is handed over
    twice. -/
theorem hooksOf_between :
    (hooksOf c.row entries).Nodup ∧ (∀ h ∈ hooksOf c.row entries, ¬ cursor.Passed h ∧
      ((c.page filter erased n cursor).cursor c).Passed h) ∧ ∀ h, cursor.Passed h →
      ((c.page filter erased n cursor).cursor c).Passed h := by
  obtain ⟨hsorted, dealt, left, hsplit, hkept, hdone, hlast⟩ := exists_dealt erased n hcat hat
  obtain ⟨hrow, -, hplace⟩ := hat
  have hs : Scan.Sorted Frame.offset (dealt ++ left) := hsplit ▸ hsorted.sublist filter_sublist
  obtain ⟨hent, -⟩ := resolveArchiveEntries_eq_some hres
  rw [append_nil, hkept] at hent
  refine ⟨?_, ?_, ?_⟩
  · have hsub : List.Sublist entries.reverse dealt := by
      rw [hent, reverse_reverse]
      exact filter_sublist.trans filter_sublist
    have hlt := (hs.sublist (sublist_append_left _ _)).sublist hsub
    rw [hooksOf, ← nodup_reverse, ← map_reverse]
    exact pairwise_map.2 (hlt.imp fun hab heq => hab.ne (Prod.mk.inj heq).2)
  · intro h hh
    obtain ⟨f, hf, rfl⟩ := mem_map.1 hh
    have hfd : f ∈ dealt := by
      rw [hent, mem_reverse] at hf
      exact (mem_filter.1 (mem_filter.1 hf).1).1
    have hoff : cursor.offset0 ≤ f.offset := by
      have := hsplit ▸ mem_append_left left hfd
      simpa using (mem_filter.1 this).2
    constructor
    · intro hpassed
      cases cursor with
      | inside =>
        simp only [Cursor.Passed, hplace.1, Cursor.offset0] at hpassed hoff
        omega
      | start => exact hpassed
      | done => exact absurd hpassed (not_le.2 (lt_of_nextSegment hplace))
    · unfold Page.cursor
      split
      · exact le_rfl
      next hall =>
        obtain ⟨x, xs, rfl⟩ := exists_cons_of_ne_nil (fun hnil => hall (hdone.2 hnil))
        exact .inr ⟨rfl, hlast x xs rfl ▸ hs.lt_of_append hfd mem_cons_self⟩
  · intro h hpassed
    have hfs : cursor.isInside = false → h.1 < c.row.firstSeq := by
      intro hin
      cases cursor with
      | inside => cases hin
      | start => cases hpassed
      | done => exact lt_of_le_of_lt hpassed (lt_of_nextSegment hplace)
    unfold Page.cursor
    split
    · cases cursor with
      | inside =>
        simp only [Cursor.Passed, hplace.1] at hpassed ⊢
        omega
      | start => cases hpassed
      | done => exact (hfs rfl).le
    next hall =>
      cases cursor with
      | inside fs offset =>
        obtain ⟨x, xs, rfl⟩ := exists_cons_of_ne_nil (fun hnil => hall (hdone.2 hnil))
        have hx := hsplit ▸ mem_append_right dealt (mem_cons_self)
        have hxoff : offset ≤ x.offset := of_decide_eq_true (mem_filter.1 hx).2
        have hlx := hlast x xs rfl
        simp only [Cursor.Passed, hplace.1] at hpassed ⊢
        omega
      | start => cases hpassed
      | done => exact .inl (hfs rfl)

end

theorem at_cursor (hcat : Catalogued catalogue) (hat : At catalogue filter cursor c)
    (hall : (c.page filter erased n cursor).doneAll = false) :
    At catalogue filter ((c.page filter erased n cursor).cursor c) c := by
  obtain ⟨-, dealt, left, hsplit, -, hdone, hlast⟩ := exists_dealt erased n hcat hat
  have hne : left ≠ [] := fun hnil => absurd (hall.symm.trans (hdone.2 hnil)) (by simp)
  obtain ⟨x, xs, rfl⟩ := exists_cons_of_ne_nil hne
  have hx := hsplit ▸ mem_append_right dealt (mem_cons_self)
  refine ⟨hat.1, hat.2.1, ?_⟩
  rw [Page.cursor, hall]
  exact ⟨rfl, x, (mem_filter.1 hx).1, (hlast x xs rfl).symm⟩

end Placed

/-! ## Runs -/

section Runs

variable {catalogue : List Segment} {filter : Filter} {s t : State}
  {outcome : Outcome} {job : Job} {hooks : List Hook} {cache : Option Cache}

theorem tick_cases {n : Nat} {w : World} (hs : Placed catalogue filter s)
    (h : step catalogue s (.tick n w outcome) = some t) : t = s ∨ (s.job.cursor.isInside = false ∧
      nextSegment catalogue s.job.cursor.afterFirstSeq filter.minId filter.maxId = none ∧
      t = finishJob s outcome) ∨ (∃ row, s.job.cursor.isInside = false ∧ row.object = none ∧
      nextSegment catalogue s.job.cursor.afterFirstSeq filter.minId filter.maxId = some row ∧
      t = advanceSkipped s row outcome) ∨
        (∃ c, At catalogue filter s.job.cursor c ∧ t = { s with cache := some c }) ∨
    ∃ c erased entries skipped, At catalogue filter s.job.cursor c ∧
    w.erased = some erased ∧ 1 ≤ n ∧
      resolveArchiveEntries w.route (c.page filter erased n s.job.cursor).kept.reverse []
        (c.page filter erased n s.job.cursor).skipped = some (entries, skipped) ∧
      (s.cache = some c ∨ s.job.cursor.isInside = false) ∧
      t = writeArchive s c entries skipped (c.page filter erased n s.job.cursor) outcome := by
  simp only [step] at h
  split at h
  next hguard =>
    rcases loadSegment_finds hs w.readable with ⟨c, hload, hat⟩ | ⟨row, hload, hin, hobj, hnext⟩ |
      ⟨hload, hin, hnext⟩ | hload | hload
    · rw [hload] at h
      cases h
      have hcached : s.cache = some c ∨ s.job.cursor.isInside = false := by
        by_cases hin : s.job.cursor.isInside = true
        · obtain ⟨c', hc'⟩ := isSome_iff_exists.1 (hs.inside hin)
          rw [hc', loadSegment, if_pos ((hs.cached c' hc').ne_nil hin)] at hload
          exact .inl (hc'.trans (congrArg some (Loaded.ok.inj hload)))
        · exact .inr (by simpa using hin)
      unfold redriveSegment
      cases herased : w.erased with
      | none => exact .inr (.inr (.inr (.inl ⟨c, hat, rfl⟩)))
      | some erased =>
        simp only [hs.jobFilter]
        cases hres : resolveArchiveEntries w.route
            (c.page filter erased n s.job.cursor).kept.reverse []
            (c.page filter erased n s.job.cursor).skipped with
        | none => exact .inr (.inr (.inr (.inl ⟨c, hat, rfl⟩)))
        | some res =>
          exact .inr (.inr
            (.inr (.inr ⟨c, erased, res.1, res.2, hat, rfl, hguard.2, hres, hcached, rfl⟩)))
    · rw [hload] at h
      exact .inr (.inr (.inl ⟨row, hin, hobj, hnext, (some.inj h).symm⟩))
    · rw [hload] at h
      exact .inr (.inl ⟨hin, hnext, (some.inj h).symm⟩)
    · rw [hload] at h
      exact .inl (some.inj h).symm
    · rw [hload] at h
      cases h
  next => cases h

variable {e : Event}

theorem placed_step (hcat : Catalogued catalogue) (hs : Placed catalogue filter s)
    (hunbroken : Unbroken s e) (h : step catalogue s e = some t) : Placed catalogue filter t := by
  cases e with
  | restart =>
    cases h
    exact ⟨hs.storedFilter, hs.storedFilter, fun _ hc => (nomatch hc),
      fun hin => absurd (hunbroken.symm.trans hin) (by simp)⟩
  | tick n w outcome =>
    rcases tick_cases hs h with rfl | ⟨hin, -, rfl⟩ | ⟨row, hin, -, -, rfl⟩ | ⟨c, hat, rfl⟩ |
      ⟨c, erased, entries, skipped, hat, herased, hn, hres, hcached, rfl⟩
    · exact hs
    · cases outcome <;>
        exact { hs with storedFilter := by first | exact hs.storedFilter | exact hs.jobFilter }
    · cases outcome
      · exact ⟨hs.jobFilter, hs.jobFilter, fun _ hc => (nomatch hc), fun hin => (nomatch hin)⟩
      · exact ⟨hs.jobFilter, hs.storedFilter, fun _ hc => (nomatch hc),
          fun hin' => absurd (hin.symm.trans hin') (by simp)⟩
      · exact ⟨hs.jobFilter, hs.jobFilter, fun _ hc => (nomatch hc),
          fun hin' => absurd (hin.symm.trans hin') (by simp)⟩
    · refine ⟨hs.jobFilter, hs.storedFilter, fun c' hc' => ?_, fun _ => rfl⟩
      cases hc'
      exact hat
    · -- a page: the cache goes only when the whole segment is dealt with
      cases hall : (c.page filter erased n s.job.cursor).doneAll with
      | false =>
        have hnew := at_cursor hcat hat hall
        rw [Page.cursor, hall] at hnew
        cases outcome
        · refine ⟨hs.jobFilter, hs.jobFilter, fun c' hc' => ?_, fun _ => ?_⟩
          · simp only [writeArchive, commit, hall] at hc' ⊢
            cases hc'
            exact hnew
          · simp [hall]
        all_goals
          refine ⟨hs.jobFilter, by first | exact hs.storedFilter | exact hs.jobFilter,
            fun c' hc' => ?_, fun _ => ?_⟩
          · simp only [writeArchive, commit, hall] at hc' ⊢
            cases hc'
            exact hat
          · simp [hall]
      | true =>
        -- the page reaches the end of the segment, so it is written if the cursor is inside
        have hsafe : s.job.cursor.isInside = false ∨ outcome = .ok := by
          rcases hunbroken with hin | hok | hfills
          · exact .inl hin
          · exact .inr hok
          · rcases hcached with hc | hin
            · simp only [hc, any_some, herased, getD_some, fillsPage, hs.jobFilter,
                decide_eq_true_eq] at hfills
              have hleft := doneAll_eq_false_of_fills filter erased n s.job.cursor.offset0 c.entries
                { kept := [], skipped := 0, scanned := 0, doneAll := true,
                  lastOffset := s.job.cursor.offset0 }
                (fun hnil => by rw [hnil] at hfills; exact absurd (hn.trans hfills) (by simp))
                (by simpa using hfills)
              exact absurd (hall.symm.trans hleft) (by simp)
            · exact .inl hin
        cases outcome
        · refine ⟨hs.jobFilter, hs.jobFilter, fun c' hc' => ?_, fun hin => ?_⟩
          · simp [hall] at hc'
          · simp [hall, Cursor.isInside] at hin
        all_goals
          have hin : s.job.cursor.isInside = false := hsafe.resolve_right (by simp)
          refine ⟨hs.jobFilter, by first | exact hs.storedFilter | exact hs.jobFilter,
            fun c' hc' => ?_, fun hin' => ?_⟩
          · simp [hall] at hc'
          · simp [hin] at hin'

/-- What a cursor has passed, or a finished job owed, was in some page. -/
structure Covered (h : Hook) (s : State) : Prop where
  cursor : s.job.cursor.Passed h → h ∈ s.pages.flatten
  stored : s.stored.cursor.Passed h → h ∈ s.pages.flatten
  done : s.job.status = .done → h ∈ s.pages.flatten
  storedDone : s.stored.status = .done → h ∈ s.pages.flatten

theorem Covered.commit {h : Hook} (hs : Covered h s)
    (hcursor : job.cursor.Passed h → h ∈ s.pages.flatten ∨ h ∈ hooks)
    (hdone : job.status = .done → h ∈ s.pages.flatten) (outcome : Outcome) :
    Covered h (commit s job hooks cache outcome) := by
  have hmono : h ∈ s.pages.flatten → h ∈ (s.pages ++ [hooks]).flatten := by
    simp only [flatten_append, mem_append]
    exact .inl
  have hnew : job.cursor.Passed h → h ∈ (s.pages ++ [hooks]).flatten := by
    intro hp
    simpa using hcursor hp
  cases outcome
  · exact ⟨hnew, hnew, hmono ∘ hdone, hmono ∘ hdone⟩
  · exact { hs with }
  · exact ⟨hmono ∘ hs.cursor, hnew, hmono ∘ hs.done, hmono ∘ hdone⟩

theorem covered_step {row : Segment} {f : Frame} {r : Rec} (hcat : Catalogued catalogue)
    (ho : Owed catalogue filter row f r) (hp : Placed catalogue filter s)
    (hs : Covered (row.firstSeq, f.offset) s) (hrouted : Routed r s e)
    (h : step catalogue s e = some t) : Covered (row.firstSeq, f.offset) t := by
  cases e with
  | restart =>
    cases h
    exact ⟨hs.stored, hs.stored, hs.storedDone, hs.storedDone⟩
  | tick n w outcome =>
    rcases tick_cases hp h with rfl | ⟨hin, hnext, rfl⟩ | ⟨skip, hin, hobj, hnext, rfl⟩ |
      ⟨c, hat, rfl⟩ | ⟨c, erased, entries, skipped, hat, herased, -, hres, -, rfl⟩
    · exact hs
    · -- nothing follows the cursor, so it has passed every hook that is owed
      refine hs.commit ?_ ?_ outcome
      · exact fun hpassed => .inl (hs.cursor hpassed)
      exact fun _ =>
        hs.cursor (passed_of_le hcat ho.mem hin (ho.le_of_nextSegment_none hcat hnext) f.offset)
    · -- a segment without its objects holds no hook
      refine hs.commit ?_ ?_ outcome
      swap
      · exact hs.done
      intro hpassed
      refine .inl (hs.cursor ?_)
      have hle : row.firstSeq ≤ skip.firstSeq := hpassed
      have hafter : row.firstSeq ≤ s.job.cursor.afterFirstSeq := by
        refine (ho.le_or_le_of_nextSegment hcat hnext).resolve_right fun hge => ?_
        obtain rfl :=
          hcat.sorted.eq_of_key_eq ho.mem (mem_of_find?_eq_some hnext) (le_antisymm hle hge)
        obtain ⟨index, hindex, -⟩ := ho.index
        simp [hobj] at hindex
      exact passed_of_le hcat ho.mem hin hafter f.offset
    · exact { hs with }
    · refine hs.commit ?_ ?_ outcome
      · intro hpassed
        exact (passed_or_mem_hooksOf hcat hat hres ho
          (hrouted.1 erased herased) hrouted.2 hpassed).imp_left hs.cursor
      · exact hs.done

/-- The stored record is the process's, and the pages hold each hook behind the cursor once. -/
structure Once (s : State) : Prop where
  stored : s.stored = s.job
  nodup : s.pages.flatten.Nodup
  passed : ∀ h ∈ s.pages.flatten, s.job.cursor.Passed h

/-- The write landed and its answer was lost. -/
def Event.lost : Event → Bool
  | .tick _ _ .lost => true
  | .tick _ _ _ | .restart => false

theorem Once.commit
    (hs : Once s) (hnodup : hooks.Nodup)
    (hbetween : ∀ h ∈ hooks, ¬ s.job.cursor.Passed h ∧ job.cursor.Passed h)
    (hmono : ∀ h, s.job.cursor.Passed h → job.cursor.Passed h) (hlost : outcome ≠ .lost) :
    Once (commit s job hooks cache outcome) := by
  cases outcome
  · refine ⟨rfl, ?_, ?_⟩
    · simp only [Archive.commit, flatten_append, flatten_cons, flatten_nil, append_nil]
      refine nodup_append'.2 ⟨hs.nodup, hnodup, fun h hold hnew => ?_⟩
      exact (hbetween h hnew).1 (hs.passed h hold)
    intro h hh
    simp only [Archive.commit, flatten_append, flatten_cons, flatten_nil,
      append_nil, mem_append] at hh
    rcases hh with hold | hnew
    · exact hmono h (hs.passed h hold)
    · exact (hbetween h hnew).2
  · exact { hs with }
  · exact absurd rfl hlost

theorem once_step (hcat : Catalogued catalogue) (hp : Placed catalogue filter s)
    (hs : Once s) (hlost : e.lost = false) (h : step catalogue s e = some t) : Once t := by
  cases e with
  | restart =>
    cases h
    exact ⟨rfl, hs.nodup, fun x hx => hs.stored ▸ hs.passed x hx⟩
  | tick n w outcome =>
    have hlost : outcome ≠ .lost := by
      rintro rfl
      cases hlost
    rcases tick_cases hp h with rfl | ⟨-, -, rfl⟩ | ⟨skip, hin, -, hnext, rfl⟩ |
      ⟨c, hat, rfl⟩ | ⟨c, erased, entries, skipped, hat, -, -, hres, -, rfl⟩
    · exact hs
    · exact hs.commit .nil (forall_mem_nil _) (fun _ hx => hx) hlost
    · refine hs.commit .nil (forall_mem_nil _) (fun x hx => ?_) hlost
      cases hcur : s.job.cursor with
      | inside => simp [hcur, Cursor.isInside] at hin
      | start =>
        rw [hcur] at hx
        cases hx
      | done =>
        rw [hcur] at hx hnext
        exact le_trans hx (lt_of_nextSegment hnext).le
    · exact { hs with }
    · obtain ⟨hnodup, hbetween, hmono⟩ := hooksOf_between hcat hat hres
      exact hs.commit hnodup hbetween hmono hlost

theorem pages_nodup_step (hcat : Catalogued catalogue) (hp : Placed catalogue filter s)
    (hs : ∀ page ∈ s.pages, page.Nodup) (h : step catalogue s e = some t) :
    ∀ page ∈ t.pages, page.Nodup := by
  have hcommit : ∀ (job : Job) (hooks : List Hook) (cache : Option Cache) (outcome : Outcome),
      hooks.Nodup → ∀ page ∈ (commit s job hooks cache outcome).pages, page.Nodup := by
    intro job hooks cache outcome hnodup page hpage
    have hmem : page ∈ s.pages ∨ page = hooks := by
      cases outcome
      · simpa using hpage
      · exact .inl hpage
      · simpa using hpage
    rcases hmem with hold | rfl
    · exact hs page hold
    · exact hnodup
  cases e with
  | restart =>
    cases h
    exact hs
  | tick =>
    rcases tick_cases hp h with rfl | ⟨-, -, rfl⟩ | ⟨skip, -, -, -, rfl⟩ | ⟨c, -, rfl⟩ |
      ⟨c, erased, entries, skipped, hat, -, -, hres, -, rfl⟩
    · exact hs
    · exact hcommit _ _ _ _ .nil
    · exact hcommit _ _ _ _ .nil
    · exact hs
    · exact hcommit _ _ _ _ (hooksOf_between hcat hat hres).1

theorem Created.placed (hs : Created s) : Placed catalogue s.job.filter s where
  jobFilter := rfl
  storedFilter := by rw [hs.stored]
  cached := by simp [hs.cache]
  inside := by simp [hs.cursor, Cursor.isInside]

theorem Created.covered (hs : Created s) (h : Hook) : Covered h s := by
  have hstart : ¬ s.job.cursor.Passed h := by simp [hs.cursor, Cursor.Passed]
  have hrunning : s.job.status ≠ .done := by simp [hs.status]
  exact ⟨fun hp => absurd hp hstart, fun hp => absurd (hs.stored ▸ hp) hstart,
    fun hd => absurd hd hrunning, fun hd => absurd (hs.stored ▸ hd) hrunning⟩

theorem Created.once (hs : Created s) : Once s :=
  ⟨hs.stored, by simp [hs.pages], by simp [hs.pages]⟩

/-- **An unbroken job hands over every hook it owes.** Along a run in which the process does not
restart and no last page fails while the cursor is inside a segment: once the job is done, every
hook of the catalogue in the window that passes the filter was in a committed page; no page holds a
hook twice, and without a lost answer no two pages do; and a cursor inside a segment always has that
segment at hand, so its offset is never applied to another one. -/
theorem done_handed_once {es : List Event} (hcat : Catalogued catalogue) (hs : Created s)
    (hrun : Run.exec (step catalogue) s es = some t)
    (hunbroken : Run.Along (step catalogue) Unbroken s es) :
    (∀ row f r, Owed catalogue s.job.filter row f r → Run.Along (step catalogue) (Routed r) s es →
      t.job.status = .done → ∃ page ∈ t.pages, (row.firstSeq, f.offset) ∈ page) ∧
        (∀ page ∈ t.pages, page.Nodup) ∧
    ((∀ e ∈ es, e.lost = false) → t.pages.flatten.Nodup) ∧
    (∀ fs offset, t.job.cursor = .inside fs offset →
      ∃ c, t.cache = some c ∧ c.row.firstSeq = fs) := by
  have hplaced : Placed catalogue s.job.filter t :=
    invariant_along (fun u e v hu hP hstep => placed_step hcat hu hP hstep) hs.placed hunbroken hrun
  refine ⟨?_, ?_, ?_, ?_⟩
  · intro row f r ho hrouted hdone
    have hinv := invariant_along
      (I := fun u => Placed catalogue s.job.filter u ∧ Covered (row.firstSeq, f.offset) u)
      (fun u e v hu hP hstep =>
        ⟨placed_step hcat hu.1 hP.1 hstep, covered_step hcat ho hu.1 hu.2 hP.2 hstep⟩)
      ⟨hs.placed, hs.covered _⟩ (hunbroken.and hrouted) hrun
    simpa using hinv.2.done hdone
  · exact (invariant_along (I := fun u => Placed catalogue s.job.filter u ∧ ∀ page ∈ u.pages,
      page.Nodup) (fun u e v hu hP hstep =>
        ⟨placed_step hcat hu.1 hP hstep, pages_nodup_step hcat hu.1 hu.2 hstep⟩)
      ⟨hs.placed, by simp [hs.pages]⟩ hunbroken hrun).2
  · intro hlost
    exact (invariant_along (I := fun u => Placed catalogue s.job.filter u ∧ Once u)
      (fun u e v hu hP hstep =>
        ⟨placed_step hcat hu.1 hP.1 hstep, once_step hcat hu.1 hu.2 hP.2 hstep⟩)
      ⟨hs.placed, hs.once⟩ (hunbroken.and (Along.of_forall hlost)) hrun).2.nodup
  · intro fs offset hcur
    obtain ⟨c, hc⟩ := isSome_iff_exists.1 (hplaced.inside (by simp [hcur, Cursor.isInside]))
    have hat := (hplaced.cached c hc).2.2
    rw [hcur] at hat
    exact ⟨c, hc, hat.1⟩

end Runs

/-! ### Two segments -/

/-- A hook received inside the window. -/
def push : Rec := { receivedAt := 5000, sourceId := "github", tenantId := none }

/-- An entry of the hook. -/
def frameAt (k offset : Nat) : Frame :=
  { id := minFor 5000 + k, offset := offset, length := 100, record := some push }

/-- Two segments of two entries. -/
def twoSegments : List Segment :=
  [{ firstSeq := 1, minId := minFor 5000, maxId := minFor 5000 + 1, count := 2,
     object := some [frameAt 0 0, frameAt 1 100] },
   { firstSeq := 11, minId := minFor 5000 + 2, maxId := minFor 5000 + 3, count := 2,
     object := some [frameAt 2 0, frameAt 3 200] }]

/-- A job over the hooks of both segments. -/
def windowJob : Job :=
  { filter := { from_ := 4000, to_ := 6000, sourceId := none, tenants := none }, cursor := .start,
    status := .running, moved := 0, skipped := 0, scanned := 0 }

/-- The job as it is created. -/
def fresh : State := { stored := windowJob, job := windowJob, cache := none, pages := [] }

/-- Nothing fails and every hook has a sink. -/
def calm : World := { readable := true, erased := some [], route := fun _ => .selected }

theorem catalogued_twoSegments : Catalogued twoSegments where
  sorted := by decide +kernel
  positive := by decide +kernel
  range := by decide +kernel
  offsets := by decide +kernel
  times := by
    intro row hrow index hindex f hf r hr
    have hall : ∀ row ∈ twoSegments, ∀ index ∈ row.object, ∀ f ∈ index, ∀ r ∈ f.record,
        timestampMs f.id = some 5000 ∧ r.receivedAt = 5000 := by decide +kernel
    obtain ⟨hms, hrec⟩ := hall row hrow index hindex f hf r hr
    exact ⟨5000, hms, by omega, by omega⟩

theorem created_fresh : Created fresh := ⟨rfl, rfl, rfl, rfl, rfl⟩

theorem owed_frameAt {row : Segment} {index : List Frame} {f : Frame} (hrow : row ∈ twoSegments)
    (hindex : row.object = some index) (hf : f ∈ index) (hr : f.record = some push) :
    Owed twoSegments fresh.job.filter row f push :=
  ⟨hrow, ⟨index, hindex, hf⟩, hr, by decide, rfl, rfl⟩

/-- A failed write and a restart between segments do no harm. -/
def wholeWalk : List Event :=
  [.tick 1 calm .failed, .tick 1 calm .ok, .tick 5 calm .ok, .restart, .tick 5 calm .ok,
    .tick 5 calm .ok]

theorem done_handed_once_twoSegments :
    ∃ t, Run.exec (step twoSegments) fresh wholeWalk = some t ∧ t.job.status = .done ∧
      ∃ page ∈ t.pages, (1, 100) ∈ page := by
  obtain ⟨t, ht, hdone⟩ := of_exec (f := step twoSegments) (s := fresh)
    (l := wholeWalk) (P := fun t => t.job.status = .done) (by decide +kernel)
  have hmain := done_handed_once catalogued_twoSegments created_fresh ht (by decide +kernel)
  exact ⟨t, ht, hdone, hmain.1 _ _ _ (owed_frameAt (f := frameAt 1 100) mem_cons_self rfl
    (by simp) rfl) (by decide +kernel) hdone⟩

/-- After a restart inside the first segment, and after the write of its last page failed, the job
finishes without the rest of it, and without the entries of the second one before the offset. -/
theorem done_not_handed_after_restart : Created fresh ∧ Catalogued twoSegments ∧
    (∃ row, row.firstSeq = 1 ∧ Owed twoSegments fresh.job.filter row (frameAt 1 100) push) ∧
    (∃ t, Run.exec (step twoSegments) fresh
        [.tick 1 calm .ok, .restart, .tick 5 calm .ok, .tick 5 calm .ok] = some t ∧
      t.job.status = .done ∧ t.pages = [[(1, 0)], [(11, 200)], []]) ∧
        (∃ t, Run.exec (step twoSegments) fresh
        [.tick 1 calm .ok, .tick 5 calm .failed, .tick 5 calm .ok, .tick 5 calm .ok] = some t ∧
      t.job.status = .done ∧ t.pages = [[(1, 0)], [(11, 200)], []]) :=
  ⟨created_fresh, catalogued_twoSegments, ⟨_, rfl, owed_frameAt mem_cons_self rfl (by simp) rfl⟩,
    of_exec (by decide +kernel), of_exec (by decide +kernel)⟩

end Ankusa.Replay.Archive
