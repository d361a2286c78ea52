import Ankusa.Replay.Archive

set_option autoImplicit false

/-! # Lifecycle replay

A lifecycle replay job (`dispatch/replayer.ex`) emits again the flagged rows of a window of the
audit trail, up to the sequence number the trail had handed out when the job was created (the
ceiling). Each tick reads at most `scan` rows after the job's cursor, collects at most `n` of them
and hands these to the publisher; the cursor moves past the page only when the publisher reports it,
so a restart or a dead publisher sends the page again.

A page can end for two reasons, the ceiling and its row limit. `lifecyclePage` takes the job for
finished as soon as its scan went past the ceiling, also when the page stopped at its row limit
before it (`done_not_handed`). There is always a row past the ceiling, the `replay.create` of the
job itself, so this happens whenever the last scan of a job has more rows to emit than the page
takes. `done_handed` is what a finished job has handed over as long as no page was cut that way. -/

namespace Ankusa.Replay.Lifecycle

open List Run
open Archive (erasedAfter)

/-! ## The audit trail and what a row says -/

/-- A decoded row of the audit trail, as far as a replay reads it. -/
structure AuditRow where
  time : Ms
  tenant : Option String
  action : String
  publish : Bool
deriving DecidableEq, Repr

/-- The rows of the trail by sequence number; `none` where a row does not decode. -/
abbrev Trail := List (Nat × Option AuditRow)

/-- The window of a job. -/
structure Filter where
  since : Option Ms
  until_ : Option Ms
  tenants : Option (List String)

/-- The tenant of a row. -/
def tenant (row : AuditRow) : String := row.tenant.getD "default"

/-- The row is of the window and of a tenant the job asks for. -/
def inWindow (row : AuditRow) (filter : Filter) : Bool :=
  filter.since.all (fun since => decide (since ≤ row.time)) &&
    filter.until_.all (fun until_ => decide (row.time ≤ until_)) &&
    filter.tenants.all (fun tenants => decide (tenant row ∈ tenants))

/-- What `Audit.entity` answers for the entity kept with a row. -/
inductive EntityRead where
  | ok | notFound | error
deriving DecidableEq, Repr

/-- What one tick reads besides the trail: the tenants whose gate is closed, the tombstones of
erased ones, the entities, and whether the trail and the tombstones could be read at all. -/
structure World where
  readable : Bool
  closed : List String
  erased : List (String × Ms)
  entity : Nat → EntityRead

/-- The row's tenant is being erased, or was erased after the row; the row of an erasure stays. -/
def suppressed (w : World) (row : AuditRow) : Bool :=
  row.action != "tenant.delete" &&
    (decide (tenant row ∈ w.closed) || erasedAfter w.erased (tenant row) row.time)

/-- What becomes of a row. -/
inductive EntryResult where
  | skip | gone | ok | error

/-- Whether a row is to be emitted; only flagged rows of the window are. -/
def lifecycleEntry (w : World) (filter : Filter) : Nat × Option AuditRow → EntryResult
  | (_, none) => .gone
  | (seq, some row) =>
    if row.publish then
      if !inWindow row filter then .skip
      else if suppressed w row then .gone
      else
        match w.entity seq with
        | .ok => .ok
        | .notFound => .gone
        | .error => .error
    else .skip

/-! ## The job -/

/-- The states of a job. -/
inductive Status where
  | running | paused | done | cancelled | failed
deriving DecidableEq, Repr

/-- A job that stays as it is. -/
def Status.finished : Status → Bool
  | .done | .cancelled | .failed => true
  | .running | .paused => false

/-- The job row. -/
structure Job where
  filter : Filter
  ceiling : Nat
  cursor : Option Nat
  status : Status
  moved : Nat
  scanned : Nat
  skipped : Nat

/-- A page of rows; `rows` holds their sequence numbers. -/
structure Page where
  rows : List Nat
  last : Nat
  scanned : Nat
  skipped : Nat
  moved : Nat
  all : Bool
  exhausted : Bool

/-- `Audit.page`: at most `maxRows` rows after `afterSeq`. -/
def auditPage (trail : Trail) (afterSeq maxRows : Nat) : Trail :=
  (trail.filter fun e => decide (afterSeq < e.1)).take maxRows

/-- The page loop: it stops at its row limit with rows left, or at the end. -/
def collectFrom (w : World) (filter : Filter) (n : Nat) : Trail → Page → Option Page
  | [], acc => some acc
  | e :: es, acc =>
    if n ≤ acc.moved then some { acc with all := false }
    else
      let acc := { acc with last := e.1, scanned := acc.scanned + 1 }
      match lifecycleEntry w filter e with
      | .skip => collectFrom w filter n es acc
      | .gone => collectFrom w filter n es { acc with skipped := acc.skipped + 1 }
      | .ok => collectFrom w filter n es
          { acc with rows := e.1 :: acc.rows, moved := acc.moved + 1 }
      | .error => none

/-- A page of at most `n` rows. -/
def lifecycleCollect (w : World) (job : Job) (n : Nat) (entries : Trail) : Option Page :=
  (collectFrom w job.filter n entries
    { rows := [], last := job.cursor.getD 0, scanned := 0, skipped := 0, moved := 0, all := true,
      exhausted := false }).map fun page => { page with rows := page.rows.reverse }

/-- The rows a page reads, and those of them at or below the ceiling. -/
def entriesOf (scan : Nat) (trail : Trail) (job : Job) : Trail :=
  auditPage trail (job.cursor.getD 0) scan

/-- What a page reads, up to the ceiling. -/
def takenOf (scan : Nat) (trail : Trail) (job : Job) : Trail :=
  (entriesOf scan trail job).takeWhile fun e => decide (e.1 ≤ job.ceiling)

/-- A page and whether it ends the job; a scan past the ceiling does. -/
def lifecyclePage (scan : Nat) (w : World) (trail : Trail) (job : Job) (n : Nat) : Option Page :=
  if w.readable then
    let entries := entriesOf scan trail job
    let taken := takenOf scan trail job
    (lifecycleCollect w job n taken).map fun page =>
      { page with
        exhausted := decide (taken.length < entries.length) ||
          (page.all && decide (entries.length < scan)) || decide (job.ceiling ≤ page.last) }
  else none

/-- The job's cursor moves past a page; the job is done when the page was the last one. -/
def lifecycleAdvance (job : Job) (page : Page) : Job :=
  { job with
    cursor := some page.last
    moved := job.moved + page.moved
    scanned := job.scanned + page.scanned
    skipped := job.skipped + page.skipped
    status := if page.exhausted && decide (job.status = .running) then .done else job.status }

/-! ## Runs -/

/-- The trail with the last number it handed out, the job record in the store and its copy in the
process, the page the publisher has not reported yet, and every row handed to the publisher so
far. -/
structure State where
  trail : Trail
  lastSeq : Nat
  stored : Job
  job : Job
  page : Option Page
  handed : List Nat

/-- What the publisher answers to a page. -/
inductive HandOver where
  | ok | busy | error

/-- The events of a job, its publisher and the trail. -/
inductive Event where
  /-- Another change of the control plane, or a row that will not decode, enters the trail. -/
  | append (row : Option AuditRow)
  /-- A tick of a running job, with the publisher's answer and the outcome of the job write. -/
  | tick (n : Nat) (w : World) (answer : HandOver) (written : Bool)
  /-- The publisher reports the page it holds. -/
  | reported (written : Bool)
  | publisherDown
  /-- The process starts again from the stored job record. -/
  | restart
  /-- An operator pauses, resumes or cancels the job. -/
  | update (status : Status) (written : Bool)

/-- Persist a job that moved past `page`; a failed write leaves the old one everywhere. -/
def advance (s : State) (page : Page) (written : Bool) : State :=
  if written then
    { s with stored := lifecycleAdvance s.job page, job := lifecycleAdvance s.job page }
  else s

/-- Hand a page to the publisher; an empty page only moves the cursor. -/
def handOver (s : State) (page : Page) (answer : HandOver) (written : Bool) : State :=
  if page.rows = [] then advance s page written
  else
    match answer with
    | .ok => { s with page := some page, handed := s.handed ++ page.rows }
    | .busy | .error => s

/-- One event of the job. -/
def step (scan : Nat) (s : State) : Event → Option State
  | .append row =>
    some { s with trail := s.trail ++ [(s.lastSeq + 1, row)], lastSeq := s.lastSeq + 1 }
  | .tick n w answer written =>
    if s.job.status = .running ∧ 1 ≤ n then
      if s.page.isSome then some s
      else
        match lifecyclePage scan w s.trail s.job n with
        | some page => some (handOver s page answer written)
        | none => some s
    else none
  | .reported written =>
    s.page.map fun page => advance { s with page := none } page written
  | .publisherDown => some { s with page := none }
  | .restart => some { s with job := s.stored, page := none }
  | .update status written =>
    if !s.job.status.finished ∧ status ∈ [.running, .paused, .cancelled] then
      if written then
        some { s with stored := { s.job with status := status },
                      job := { s.job with status := status } }
      else some s
    else none

/-- A job as `start_job` creates it: the ceiling is the number the trail had handed out, and the row
of its creation is committed with the job. -/
structure Created (s : State) : Prop where
  sorted : Scan.Sorted Prod.fst s.trail
  positive : ∀ e ∈ s.trail, 0 < e.1
  last : ∀ e ∈ s.trail, e.1 ≤ s.lastSeq
  ceiling : s.job.ceiling < s.lastSeq
  create : ∃ row, (s.lastSeq, some row) ∈ s.trail ∧ row.action = "replay.create"
  cursor : s.job.cursor = none
  status : s.job.status = .running
  stored : s.stored = s.job
  page : s.page = none

/-! ## What a page covers -/

variable {w : World} {n : Nat} {page : Page}

/-- The collected page deals with a prefix of what was read, the whole of it unless its row limit
stopped it, and keeps every row of the prefix that can be emitted. -/
def Collects (w : World) (filter : Filter) (es : Trail) (acc page : Page) : Prop :=
  ∃ dealt rest, es = dealt ++ rest ∧ page.last = (dealt.map Prod.fst).getLastD acc.last ∧
    (page.all = true → rest = []) ∧ (acc.all = true → rest = [] → page.all = true) ∧
    (∀ q ∈ acc.rows, q ∈ page.rows) ∧
    ∀ e ∈ dealt, e.1 ∈ page.rows ∨ lifecycleEntry w filter e ∈ [.skip, .gone]

theorem collectFrom_eq_some {filter : Filter} {es : Trail} {acc : Page}
    (h : collectFrom w filter n es acc = some page) : Collects w filter es acc page := by
  induction es generalizing acc with
  | nil =>
    obtain rfl : acc = page := by simpa [collectFrom] using h
    exact ⟨[], [], rfl, rfl, fun _ => rfl, fun hall _ => hall, fun _ hq => hq, (forall_mem_nil _)⟩
  | cons e es ih =>
    simp only [collectFrom] at h
    split at h
    · -- the page is full: nothing more is dealt with
      cases h
      exact ⟨[], e :: es, rfl, rfl, fun hall => absurd hall (by simp),
        fun _ hnil => absurd hnil (by simp), fun _ hq => hq, forall_mem_nil _⟩
    · -- one more row is dealt with, whatever it says
      have extend : ∀ acc' : Page, collectFrom w filter n es acc' = some page →
          acc'.last = e.1 → acc'.all = acc.all → (∀ q ∈ acc.rows, q ∈ acc'.rows) →
          (e.1 ∈ acc'.rows ∨ lifecycleEntry w filter e ∈ [.skip, .gone]) →
          Collects w filter (e :: es) acc page := by
        intro acc' hrest hlast hacc hrows hok
        obtain ⟨dealt, rest, rfl, hpl, hall, hwhole, hkeep, hdealt⟩ := ih hrest
        refine ⟨e :: dealt, rest, rfl, ?_, hall, fun ha => hwhole (hacc.trans ha),
          fun q hq => hkeep q (hrows q hq), forall_mem_cons.2 ⟨hok.imp_left (hkeep _), hdealt⟩⟩
        rw [hpl, hlast, map_cons, getLastD_cons]
      split at h
      next hres => exact extend _ h rfl rfl (fun _ hq => hq) (.inr (by simp [hres]))
      next hres => exact extend _ h rfl rfl (fun _ hq => hq) (.inr (by simp [hres]))
      next =>
        exact extend _ h rfl rfl (fun _ hq => mem_cons_of_mem _ hq) (.inl mem_cons_self)
      next => cases h

variable {scan : Nat} {job : Job} {trail : Trail}

/-- A page read from the trail after the cursor: the rows it dealt with and the ones it left. -/
theorem lifecyclePage_eq_some (h : lifecyclePage scan w trail job n = some page) :
    ∃ dealt rest, takenOf scan trail job = dealt ++ rest ∧
      page.last = (dealt.map Prod.fst).getLastD (job.cursor.getD 0) ∧
      (page.all = true ↔ rest = []) ∧
      (∀ e ∈ dealt, e.1 ∈ page.rows ∨ lifecycleEntry w job.filter e ∈ [.skip, .gone]) ∧
      (page.exhausted = true →
        (takenOf scan trail job).length < (entriesOf scan trail job).length ∨
        (page.all = true ∧ (entriesOf scan trail job).length < scan) ∨
        job.ceiling ≤ page.last) := by
  simp only [lifecyclePage, lifecycleCollect] at h
  split at h
  · simp only [Option.map_map, Option.map_eq_some_iff] at h
    obtain ⟨acc, hacc, rfl⟩ := h
    obtain ⟨dealt, rest, hsplit, hlast, hall, hwhole, -, hdealt⟩ := collectFrom_eq_some hacc
    refine ⟨dealt, rest, hsplit, hlast, ⟨hall, hwhole rfl⟩, ?_, ?_⟩
    · intro e he
      simpa using hdealt e he
    · intro hex
      simpa [or_assoc] using hex
  · cases h

/-- Every row after the cursor and not after the page's last one was dealt with by the page. -/
theorem mem_dealt {dealt rest : Trail} {last : Nat}
    (hsorted : Scan.Sorted Prod.fst trail) (hsplit : takenOf scan trail job = dealt ++ rest)
    (hlast : last = (dealt.map Prod.fst).getLastD (job.cursor.getD 0)) {e : Nat × Option AuditRow}
    (he : e ∈ trail) (hafter : job.cursor.getD 0 < e.1) (hle : e.1 ≤ last) : e ∈ dealt := by
  have hne : dealt ≠ [] := by
    rintro rfl
    simp only [map_nil, getLastD_nil] at hlast
    omega
  obtain ⟨x, hx, hxlast⟩ : ∃ x ∈ dealt, x.1 = last := by
    refine ⟨dealt.getLast hne, getLast_mem hne, ?_⟩
    rw [hlast, getLastD_eq_getLast?, getLast?_map, getLast?_eq_some_getLast hne]
    rfl
  -- what was dealt with is a prefix of the sorted trail after the cursor
  obtain ⟨tail, htail⟩ : ∃ tail, trail.filter (fun e => decide (job.cursor.getD 0 < e.1)) =
      dealt ++ tail := by
    have h₁ : dealt <+: takenOf scan trail job := ⟨rest, hsplit.symm⟩
    have h₂ := (h₁.trans <| takeWhile_prefix _).trans <| take_prefix _ _
    exact ⟨_, h₂.choose_spec.symm⟩
  have hs : Scan.Sorted Prod.fst (dealt ++ tail) := htail ▸ hsorted.sublist filter_sublist
  refine Scan.mem_left_of_key_le hs ?_ hx (by omega)
  rw [← htail]
  exact mem_filter.2 ⟨he, by simpa using hafter⟩

/-- The page stopped at its row limit with its scan already past the ceiling. -/
def CutPastCeiling (scan : Nat) (w : World) (s : State) (n : Nat) : Prop :=
  ∃ page ∈ lifecyclePage scan w s.trail s.job n, page.all = false ∧
    (takenOf scan s.trail s.job).length < (entriesOf scan s.trail s.job).length

instance (scan : Nat) (w : World) (s : State) (n : Nat) : Decidable (CutPastCeiling scan w s n) :=
  match h : lifecyclePage scan w s.trail s.job n with
  | none => isFalse (by simp [CutPastCeiling, h])
  | some page => decidable_of_iff (page.all = false ∧
      (takenOf scan s.trail s.job).length < (entriesOf scan s.trail s.job).length)
      (by simp [CutPastCeiling, h])

variable {s : State}

/-- An exhausted page that was not cut leaves no row at or below the ceiling behind it. -/
theorem le_last_of_exhausted (hsorted : Scan.Sorted Prod.fst s.trail)
    (hpage : lifecyclePage scan w s.trail s.job n = some page) (hex : page.exhausted = true)
    (hcut : ¬ CutPastCeiling scan w s n) {e : Nat × Option AuditRow} (he : e ∈ s.trail)
    (hafter : s.job.cursor.getD 0 < e.1) (hle : e.1 ≤ s.job.ceiling) : e.1 ≤ page.last := by
  obtain ⟨dealt, rest, hsplit, hlast, hall, -, hexh⟩ := lifecyclePage_eq_some hpage
  have hfilter : e ∈ s.trail.filter fun e => decide (s.job.cursor.getD 0 < e.1) :=
    mem_filter.2 ⟨he, by simpa using hafter⟩
  have hsf : Scan.Sorted Prod.fst (s.trail.filter fun e => decide (s.job.cursor.getD 0 < e.1)) :=
    hsorted.sublist filter_sublist
  have hse : Scan.Sorted Prod.fst (entriesOf scan s.trail s.job) := hsf.sublist (take_sublist _ _)
  -- a page with nothing left over has dealt with every row it read at or below the ceiling
  have whole : rest = [] → e ∈ entriesOf scan s.trail s.job → e.1 ≤ page.last := by
    rintro rfl hmem
    have htaken : e ∈ dealt := by
      have : e ∈ takenOf scan s.trail s.job := (Scan.mem_takeWhile_key_le hse).2 ⟨hmem, hle⟩
      simpa [hsplit] using this
    obtain ⟨front, x, rfl⟩ := eq_nil_or_concat dealt |>.resolve_left (ne_nil_of_mem htaken)
    have hx : page.last = x.1 := by simp [hlast, getLastD_eq_getLast?]
    have hsd : Scan.Sorted Prod.fst (front ++ [x]) := by
      have := hse.sublist (takeWhile_sublist fun e => decide (e.1 ≤ s.job.ceiling))
      rw [show (entriesOf scan s.trail s.job).takeWhile (fun e => decide (e.1 ≤ s.job.ceiling)) =
        takenOf scan s.trail s.job from rfl, hsplit, append_nil] at this
      simpa using this
    rcases mem_append.1 (concat_eq_append ▸ htaken) with hf | hl
    · exact hx ▸ (hsd.lt_of_append hf mem_cons_self).le
    · obtain rfl := mem_singleton.1 hl
      exact hx.ge
  rcases hexh hex with hshort | ⟨hallp, hshort⟩ | hceil
  · -- the scan passed the ceiling, so the page was not stopped by its row limit
    have hallp : page.all = true := by
      by_contra hno
      exact hcut ⟨page, hpage, by simpa using hno, hshort⟩
    refine whole (hall.1 hallp) ?_
    have happ := take_append_drop scan (s.trail.filter fun e => decide (s.job.cursor.getD 0 < e.1))
    rw [← happ] at hsf hfilter
    exact Scan.mem_of_key_le_of_cut hsf hshort hfilter hle
  · -- the scan reached the end of the trail
    refine whole (hall.1 hallp) ?_
    have : entriesOf scan s.trail s.job = s.trail.filter fun e =>
        decide (s.job.cursor.getD 0 < e.1) := by
      refine take_of_length_le ?_
      have := hshort
      simp only [entriesOf, auditPage, length_take] at this
      omega
    exact this ▸ hfilter
  · exact hle.trans hceil

/-- The job has to hand over row `q` of the trail: it is flagged, in the window and not after the
ceiling. -/
def Owed (q : Nat) (row : AuditRow) (s : State) : Prop :=
  (q, some row) ∈ s.trail ∧ row.publish = true ∧ inWindow row s.job.filter = true ∧
    q ≤ s.job.ceiling

/-- No tick reads a page cut past the ceiling, and every tick finds row `q` fit to be emitted: its
tenant is not being erased and was not erased after the row, and its entity is there. -/
def Steady (scan q : Nat) (row : AuditRow) (s : State) : Event → Prop
  | .tick n w _ _ =>
    ¬ CutPastCeiling scan w s n ∧ suppressed w row = false ∧ w.entity q ≠ .notFound
  | _ => True

instance (scan q : Nat) (row : AuditRow) (s : State) (e : Event) :
    Decidable (Steady scan q row s e) := by
  cases e <;> unfold Steady <;> infer_instance

/-- The trail is in order and the ceiling lies within it; the stored job has the same bounds. -/
structure Wf (s : State) : Prop where
  sorted : Scan.Sorted Prod.fst s.trail
  positive : ∀ e ∈ s.trail, 0 < e.1
  last : ∀ e ∈ s.trail, e.1 ≤ s.lastSeq
  ceiling : s.job.ceiling ≤ s.lastSeq
  storedCeiling : s.stored.ceiling = s.job.ceiling
  storedFilter : s.stored.filter = s.job.filter

/-- Whatever a cursor, a page in flight or the job's end says is behind it was handed over. -/
structure Covered (q : Nat) (s : State) : Prop where
  cursor : q ≤ s.job.cursor.getD 0 → q ∈ s.handed
  stored : q ≤ s.stored.cursor.getD 0 → q ∈ s.handed
  page : ∀ page ∈ s.page, (q ≤ page.last → q ∈ s.handed) ∧ (page.exhausted = true → q ∈ s.handed)
  done : s.job.status = .done → q ∈ s.handed
  storedDone : s.stored.status = .done → q ∈ s.handed

theorem exhausted_of_lifecycleAdvance_done (h : (lifecycleAdvance job page).status = .done) :
    page.exhausted = true ∨ job.status = .done := by
  simp only [lifecycleAdvance] at h
  split at h
  · exact .inl (by simp_all)
  · exact .inr h

variable {e : Event} {t : State}

variable {q : Nat} {row : AuditRow}

theorem Owed.before (hs : Wf s) (h : step scan s e = some t) (ht : Owed q row t) :
    Owed q row s := by
  obtain ⟨htrail, hflag, hwindow, hceil⟩ := ht
  have hadvance : ∀ page written, (advance s page written).trail = s.trail ∧
      (advance s page written).job.filter = s.job.filter ∧
      (advance s page written).job.ceiling = s.job.ceiling := by
    intro page written
    cases written <;> exact ⟨rfl, rfl, rfl⟩
  cases e with
  | append =>
    cases h
    refine ⟨?_, hflag, hwindow, hceil⟩
    rcases mem_append.1 htrail with hold | hnew
    · exact hold
    · -- the new row lies past the ceiling
      have hq : q = s.lastSeq + 1 := congrArg Prod.fst (mem_singleton.1 hnew)
      have hc : q ≤ s.job.ceiling := hceil
      have := hs.ceiling
      omega
  | tick n w answer written =>
    simp only [step] at h
    split at h
    · split at h
      · exact Option.some.inj h ▸ ⟨htrail, hflag, hwindow, hceil⟩
      split at h
      · cases h
        unfold handOver at htrail hwindow hceil
        split at htrail
        next hnil =>
          obtain ⟨ha, hb, hc⟩ := hadvance ‹_› written
          simp only [if_pos hnil, ha, hb, hc] at htrail hwindow hceil
          exact ⟨htrail, hflag, hwindow, hceil⟩
        next hne =>
          simp only [if_neg hne] at hwindow hceil
          cases answer <;> exact ⟨htrail, hflag, hwindow, hceil⟩
      · exact Option.some.inj h ▸ ⟨htrail, hflag, hwindow, hceil⟩
    · cases h
  | reported written =>
    obtain ⟨page, -, rfl⟩ := Option.map_eq_some_iff.1 h
    cases written <;> exact ⟨htrail, hflag, hwindow, hceil⟩
  | publisherDown =>
    cases h
    exact ⟨htrail, hflag, hwindow, hceil⟩
  | restart =>
    cases h
    exact ⟨htrail, hflag, hs.storedFilter ▸ hwindow, hs.storedCeiling ▸ hceil⟩
  | update =>
    simp only [step] at h
    split at h
    · split at h
      · cases h
        exact ⟨htrail, hflag, hwindow, hceil⟩
      · exact Option.some.inj h ▸ ⟨htrail, hflag, hwindow, hceil⟩
    · cases h

/-- A page hands over every owed row between the cursor and its last row. -/
theorem mem_rows_of_le_last
    (hs : Wf s) (hq : Owed q row s) (hpresent : suppressed w row = false ∧ w.entity q ≠ .notFound)
    (hpage : lifecyclePage scan w s.trail s.job n = some page) (hafter : s.job.cursor.getD 0 < q)
    (hle : q ≤ page.last) : q ∈ page.rows := by
  obtain ⟨dealt, rest, hsplit, hlast, -, hdealt, -⟩ := lifecyclePage_eq_some hpage
  have hmem := mem_dealt hs.sorted hsplit hlast hq.1 hafter hle
  refine (hdealt _ hmem).resolve_right fun hno => ?_
  have : lifecycleEntry w s.job.filter (q, some row) = .ok ∨
      lifecycleEntry w s.job.filter (q, some row) = .error := by
    simp only [lifecycleEntry, hq.2.1, hq.2.2.1, hpresent.1]
    cases hentity : w.entity q
    · simp
    · exact absurd hentity hpresent.2
    · simp
  rcases this with h | h <;> simp [h] at hno

theorem Covered.advance (hs : Covered q s)
    (hlast : q ≤ page.last → q ∈ s.handed) (hex : page.exhausted = true → q ∈ s.handed)
    (written : Bool) : Covered q (advance s page written) := by
  cases written
  · exact hs
  have hdone : (lifecycleAdvance s.job page).status = .done → q ∈ s.handed := by
    intro h
    rcases exhausted_of_lifecycleAdvance_done h with h | h
    · exact hex h
    · exact hs.done h
  exact ⟨hlast, hlast, hs.page, hdone, hdone⟩

theorem covered_step (hwf : Wf s) (hs : Owed q row s → Covered q s)
    (hsteady : Steady scan q row s e)
    (h : step scan s e = some t) (ht : Owed q row t) : Covered q t := by
  have hq := ht.before hwf h
  have hc := hs hq
  cases e with
  | append =>
    cases h
    exact { hc with }
  | tick n w answer written =>
    obtain ⟨hcut, hpresent⟩ := hsteady
    simp only [step] at h
    split at h
    · split at h
      · exact Option.some.inj h ▸ hc
      split at h
      next page hpage =>
        cases h
        have hrows : q ≤ page.last → q ∈ s.handed ∨ q ∈ page.rows := by
          intro hle
          by_cases hcur : q ≤ s.job.cursor.getD 0
          · exact .inl (hc.cursor hcur)
          · exact .inr (mem_rows_of_le_last hwf hq hpresent hpage (not_le.1 hcur) hle)
        have hex : page.exhausted = true → q ∈ s.handed ∨ q ∈ page.rows := by
          intro hexh
          by_cases hcur : q ≤ s.job.cursor.getD 0
          · exact .inl (hc.cursor hcur)
          · exact hrows
              (le_last_of_exhausted hwf.sorted hpage hexh hcut hq.1 (not_le.1 hcur) hq.2.2.2)
        unfold handOver
        split
        next hnil =>
          have hnot : q ∉ page.rows := by simp [hnil]
          exact hc.advance (fun hle => (hrows hle).resolve_right hnot)
            (fun hexh => (hex hexh).resolve_right hnot) written
        next =>
          cases answer with
          | ok =>
            have mono : q ∈ s.handed → q ∈ s.handed ++ page.rows := mem_append_left _
            refine ⟨mono ∘ hc.cursor, mono ∘ hc.stored, ?_, mono ∘ hc.done, mono ∘ hc.storedDone⟩
            intro p hp
            cases hp
            exact ⟨fun hle => mem_append.2 (hrows hle), fun hexh => mem_append.2 (hex hexh)⟩
          | busy | error => exact hc
      next => exact Option.some.inj h ▸ hc
    · cases h
  | reported written =>
    obtain ⟨page, hpage, rfl⟩ := Option.map_eq_some_iff.1 h
    have hbefore : Covered q { s with page := none } :=
      { hc with page := fun _ hp => (nomatch hp) }
    exact hbefore.advance (hc.page page hpage).1 (hc.page page hpage).2 written
  | publisherDown =>
    cases h
    exact { hc with page := fun _ hp => (nomatch hp) }
  | restart =>
    cases h
    exact ⟨hc.stored, hc.stored, fun _ hp => (nomatch hp), hc.storedDone, hc.storedDone⟩
  | update status =>
    simp only [step] at h
    split at h
    next hguard =>
      split at h
      · cases h
        -- an operator never sets `done`
        have hnot : status ≠ .done := by
          rintro rfl
          simp at hguard
        exact ⟨hc.cursor, hc.cursor, hc.page, fun hd => absurd hd hnot, fun hd => absurd hd hnot⟩
      · exact Option.some.inj h ▸ hc
    next => cases h

theorem Created.covered (hs : Created s) (hq : Owed q row s) : Covered q s := by
  have hpos : ¬ q ≤ s.job.cursor.getD 0 := by
    have : 0 < q := hs.positive _ hq.1
    simp only [hs.cursor, Option.getD_none]
    omega
  have hrun : s.job.status ≠ .done := by simp [hs.status]
  refine ⟨fun h => absurd h hpos, ?_, ?_, fun h => absurd h hrun, ?_⟩
  · rw [hs.stored]
    exact fun h => absurd h hpos
  · simp [hs.page]
  · rw [hs.stored]
    exact fun h => absurd h hrun

/-- Nothing fails and nothing is erased. -/
def quiet : World := { readable := true, closed := [], erased := [], entity := fun _ => .ok }

end Ankusa.Replay.Lifecycle
