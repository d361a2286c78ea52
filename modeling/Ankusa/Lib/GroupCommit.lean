import Mathlib.Data.Set.Basic
import Mathlib.Data.List.TakeWhile
import Mathlib.Order.MinMax
import Mathlib.Tactic.Tauto

set_option autoImplicit false

/-! # Group commit with an asynchronous fsync

A writer appends groups of records to a log and goes on; a syncer makes the log durable behind it
and answers the callers of every group it covered. When an fsync fails the syncer is *fenced*: it
answers everything with the error, raises an alarm, and waits for the writer, which deletes the
groups above the durable mark (*undoes* them) and tells the syncer to resume.

Records are numbered (`seq`), the log is a list of batches (`index`), and every record knows the
batch it was born in. Nothing here says what a record is. `Step` is the protocol as a relation; the
results are

* `AckInv`: a record reported to its caller is never undone;
* `FailInv`: outside of an alarm every record of a failed ticket is undone;
* `SyncInv`: every record at or below the durable mark is undone or in an fsynced batch;
* `StampInv`: a group is never stamped before the mark of what is durable under it.

The second and the fourth do not hold of every run. `Step` takes the side conditions under which
they do as two propositions (`fences`, `stamps`); with `False` for one of them it asks for
nothing. -/

namespace GroupCommit

open List

/-! ## The protocol -/

/-- The batch a record was written in, and the time it was stamped with. -/
structure Birth where
  index : Nat
  stamp : Int
  deriving DecidableEq, Repr

/-- A group that waits for its fsync: the highest record it has to cover, its stamp, and the records
    its callers are told about. -/
structure Ticket where
  upto : Nat
  stamp : Int
  seqs : Set Nat

/-- A message to the syncer. -/
inductive Msg where
  | sync (t : Ticket)
  | resume (upto : Nat) (stamp : Int)

/-- What the syncer is doing; an fsync knows how long the log was when it started. -/
inductive Doing where
  | idle
  | syncing (ts : List Ticket) (start : Nat)
  | answering (ts : List Ticket) (failed : Bool)

/-- The tickets the syncer has taken. -/
def Doing.tickets : Doing → List Ticket
  | .idle => []
  | .syncing ts _ => ts
  | .answering ts _ => ts

/-- The tickets of a mailbox, what is left when they are drained, those in front of the first
    `resume` and those behind it. -/
def tickets : List Msg → List Ticket
  | [] => []
  | .sync t :: ms => t :: tickets ms
  | .resume _ _ :: ms => tickets ms

/-- The mailbox without the `sync` requests. -/
def rest : List Msg → List Msg
  | [] => []
  | .sync _ :: ms => rest ms
  | .resume v x :: ms => .resume v x :: rest ms

/-- The tickets before the first `resume`. -/
def before : List Msg → List Ticket
  | [] => []
  | .sync t :: ms => t :: before ms
  | .resume _ _ :: _ => []

/-- The tickets behind the first `resume`. -/
def behind : List Msg → List Ticket
  | [] => []
  | .sync _ :: ms => behind ms
  | .resume _ _ :: ms => tickets ms

/-- The number of `resume` messages. -/
def resumes : List Msg → Nat
  | [] => 0
  | .sync _ :: ms => resumes ms
  | .resume _ _ :: ms => resumes ms + 1

/-- The highest record and stamp a list of tickets has to cover. -/
def cover (ts : List Ticket) : Nat × Int :=
  ts.foldl (fun acc t => (max acc.1 t.upto, max acc.2 t.stamp)) (0, 0)

/-- The writer, the marks, the syncer and the disk. -/
structure State where
  /-- The next record, the stamp of the last group, and the last record of the last group that was
      left to the syncer. -/
  next : Nat
  clock : Int
  applied : Nat
  durable : Nat
  durableAt : Int
  /-- The last record of every group that may not be durable, newest first. -/
  live : List Nat
  /-- The failed fsyncs the writer knows, or will know, of and has not fenced for. -/
  alarm : Nat
  fenced : Bool
  mailbox : List Msg
  doing : Doing
  birth : Nat → Option Birth
  wal : Nat
  synced : Nat
  undone : Set Nat
  acked : Set Nat
  failed : List Ticket

namespace State

/-- The births after a batch of `n` records. -/
def born (s : State) (n : Nat) (stamp : Int) : Nat → Option Birth :=
  fun q => if s.next ≤ q ∧ q < s.next + n then some ⟨s.wal, stamp⟩ else s.birth q

/-- A fence deleted the record's batch. -/
def Undone (s : State) (q : Nat) : Prop := ∃ b, s.birth q = some b ∧ b.index ∈ s.undone

/-- The batches a fence deletes now. -/
def victims (s : State) : Set Nat :=
  {i | ∃ u ∈ s.live.takeWhile (fun u => s.durable < u), ∃ b, s.birth u = some b ∧ b.index = i}

/-- The tickets that are not answered. -/
def waiting (s : State) : List Ticket := tickets s.mailbox ++ s.doing.tickets

/-- The tickets that will be answered by an fsync, unless one fails. -/
def hopeful (s : State) : List Ticket := if s.fenced then behind s.mailbox else s.waiting

/-- The tickets that have been or will be answered with the error. -/
def doomed (s : State) : List Ticket :=
  if s.fenced then before s.mailbox ++ s.doing.tickets ++ s.failed else s.failed

/-- What the syncer does with the tickets it took: fenced, it refuses them; it answers them when
    they are covered already, and syncs otherwise. -/
def taken (s : State) (ts : List Ticket) : Doing :=
  if s.fenced then .answering ts true
  else if (cover ts).1 ≤ s.durable then .answering ts false
  else .syncing ts s.wal

theorem taken_cases (s : State) (ts : List Ticket) :
    (s.fenced = true ∧ s.taken ts = .answering ts true) ∨
      (s.fenced = false ∧ (cover ts).1 ≤ s.durable ∧ s.taken ts = .answering ts false) ∨
      (s.fenced = false ∧ s.durable < (cover ts).1 ∧ s.taken ts = .syncing ts s.wal) := by
  unfold taken
  cases hf : s.fenced with
  | true => exact .inl ⟨rfl, rfl⟩
  | false =>
    by_cases hc : (cover ts).1 ≤ s.durable
    · exact .inr (.inl ⟨rfl, hc, by simp [hc]⟩)
    · exact .inr (.inr ⟨rfl, not_le.1 hc, by simp [hc]⟩)

theorem tickets_taken (s : State) (ts : List Ticket) : (s.taken ts).tickets = ts := by
  rcases s.taken_cases ts with ⟨-, h⟩ | ⟨-, -, h⟩ | ⟨-, -, h⟩ <;> rw [h] <;> rfl

/-- A group is appended and left to the syncer. -/
def land (s : State) (n : Nat) (stamp : Int) (seqs : Set Nat) : State :=
  { s with
    next := s.next + n, clock := stamp, applied := s.next + n - 1
    live := (s.next + n - 1) :: s.live
    mailbox := s.mailbox ++ [.sync ⟨s.next + n - 1, stamp, seqs⟩]
    birth := s.born n stamp, wal := s.wal + 1 }

/-- A group is appended by a write that syncs the log itself. -/
def landSynced (s : State) (n : Nat) (stamp : Int) (acked : Set Nat) : State :=
  { s with
    next := s.next + n, clock := stamp
    durable := max s.durable (s.next + n - 1), durableAt := max s.durableAt stamp
    birth := s.born n stamp, wal := s.wal + 1, synced := s.wal + 1, acked }

/-- The live groups above the durable mark are deleted, and the syncer may go on. -/
def fence (s : State) (wal synced : Nat) : State :=
  { s with
    live := [], alarm := s.alarm - 1, mailbox := s.mailbox ++ [.resume s.applied s.clock]
    undone := s.undone ∪ s.victims, wal, synced }

end State

/-- One step of the writer or the syncer. -/
inductive Step (fences stamps : Prop) (s : State) : State → Prop
  /-- Something else is written to the log. -/
  | quiet (wal synced : Nat) (hwal : s.wal ≤ wal) (hsynced : s.synced ≤ synced)
      (hle : synced ≤ wal) : Step fences stamps s { s with wal, synced }
  /-- The write of a group failed: its numbers are spent. -/
  | skip (n : Nat) (stamp : Int) (hstamp : s.clock ≤ stamp) :
      Step fences stamps s { s with next := s.next + n, clock := stamp }
  | land (n : Nat) (stamp : Int) (seqs : Set Nat) (hn : 0 < n) (hstamp : s.clock ≤ stamp)
      (hseqs : ∀ q ∈ seqs, s.next ≤ q ∧ q < s.next + n) (hmark : stamps → s.durableAt ≤ stamp) :
      Step fences stamps s (s.land n stamp seqs)
  | landSynced (n : Nat) (stamp : Int) (acked : Set Nat) (hstamp : s.clock ≤ stamp)
      (hacked : ∀ q ∈ acked, q ∈ s.acked ∨ (s.next ≤ q ∧ q < s.next + n))
      (hquiet : fences → s.alarm = 0) :
      Step fences stamps s (s.landSynced n stamp acked)
  /-- A reply without new records waits for the groups it refers to. -/
  | duplicate (h : s.durable < s.applied) :
      Step fences stamps s { s with mailbox := s.mailbox ++ [.sync ⟨s.applied, s.clock, ∅⟩] }
  /-- The writer forgets groups that are durable. -/
  | trim (live : List Nat) (hsub : live.Sublist s.live)
      (hkeep : ∀ u ∈ s.live, s.durable < u → u ∈ live) : Step fences stamps s { s with live }
  | fence (wal synced : Nat) (halarm : 0 < s.alarm) (hwal : s.wal ≤ wal)
      (hsynced : s.synced ≤ synced) (hle : synced ≤ wal) :
      Step fences stamps s (s.fence wal synced)
  | takeResume (v : Nat) (x : Int) (ms : List Msg) (hdoing : s.doing = .idle)
      (hbox : s.mailbox = .resume v x :: ms) :
      Step fences stamps s
        { s with
          durable := max s.durable v, durableAt := max s.durableAt x
          fenced := false, mailbox := ms }
  /-- The syncer takes a ticket and drains every other one, past any `resume`. -/
  | takeSync (t : Ticket) (ms : List Msg) (hdoing : s.doing = .idle)
      (hbox : s.mailbox = .sync t :: ms)
      (hbehind : fences → s.fenced = true → behind s.mailbox = []) :
      Step fences stamps s { s with mailbox := rest ms, doing := s.taken (t :: tickets ms) }
  | syncOk (ts : List Ticket) (start : Nat) (hdoing : s.doing = .syncing ts start) :
      Step fences stamps s
        { s with
          durable := max s.durable (cover ts).1, durableAt := max s.durableAt (cover ts).2
          doing := .answering ts false, synced := max s.synced start }
  | syncFail (ts : List Ticket) (start : Nat) (hdoing : s.doing = .syncing ts start)
      (hfresh : fences → ∀ t ∈ s.waiting, ∀ q ∈ t.seqs, s.durable < q) :
      Step fences stamps s
        { s with fenced := true, alarm := s.alarm + 1, doing := .answering ts true }
  | answer (t : Ticket) (ts : List Ticket) (acked : Set Nat)
      (hdoing : s.doing = .answering (t :: ts) false)
      (hacked : ∀ q ∈ acked, q ∈ s.acked ∨ q ∈ t.seqs) :
      Step fences stamps s { s with doing := .answering ts false, acked }
  | refuse (t : Ticket) (ts : List Ticket) (hdoing : s.doing = .answering (t :: ts) true) :
      Step fences stamps s { s with doing := .answering ts true, failed := t :: s.failed }
  | done (failed : Bool) (hdoing : s.doing = .answering [] failed) :
      Step fences stamps s { s with doing := .idle }

/-! ## Mailboxes and tickets -/

theorem tickets_append (ms ms' : List Msg) : tickets (ms ++ ms') = tickets ms ++ tickets ms' := by
  induction ms with
  | nil => rfl
  | cons m ms ih => cases m <;> simp [tickets, ih]

theorem tickets_eq (ms : List Msg) : tickets ms = before ms ++ behind ms := by
  induction ms with
  | nil => rfl
  | cons m ms ih => cases m <;> simp [tickets, before, behind, ih]

@[simp] theorem tickets_rest (ms : List Msg) : tickets (rest ms) = [] := by
  induction ms with
  | nil => rfl
  | cons m ms ih => cases m <;> simp [tickets, rest, ih]

@[simp] theorem before_rest (ms : List Msg) : before (rest ms) = [] := by
  have h := tickets_eq (rest ms)
  rw [tickets_rest] at h
  exact (append_eq_nil_iff.1 h.symm).1

@[simp] theorem behind_rest (ms : List Msg) : behind (rest ms) = [] := by
  have h := tickets_eq (rest ms)
  rw [tickets_rest] at h
  exact (append_eq_nil_iff.1 h.symm).2

@[simp] theorem resumes_rest (ms : List Msg) : resumes (rest ms) = resumes ms := by
  induction ms with
  | nil => rfl
  | cons m ms ih => cases m <;> simp [resumes, rest, ih]

variable {ms : List Msg}

theorem mem_rest {m : Msg} (h : m ∈ rest ms) : m ∈ ms := by
  induction ms with
  | nil => exact h
  | cons m' ms ih =>
    cases m' with
    | sync => exact mem_cons_of_mem _ (ih h)
    | resume =>
      rcases mem_cons.1 h with rfl | h
      · exact mem_cons_self
      · exact mem_cons_of_mem _ (ih h)

theorem resumes_append (ms ms' : List Msg) : resumes (ms ++ ms') = resumes ms + resumes ms' := by
  induction ms with
  | nil => simp [resumes]
  | cons m ms ih =>
    cases m with
    | sync => exact ih
    | resume =>
      simp only [cons_append, resumes, ih]
      omega

theorem behind_of_no_resume (h : resumes ms = 0) : behind ms = [] := by
  induction ms with
  | nil => rfl
  | cons m ms ih =>
    cases m with
    | sync => exact ih h
    | resume => exact absurd h (Nat.succ_ne_zero _)

/-- A ticket queued last is in front of the first `resume` only if there is none. -/
theorem before_append_sync (ms : List Msg) (t : Ticket) :
    before (ms ++ [.sync t]) = if resumes ms = 0 then before ms ++ [t] else before ms := by
  induction ms with
  | nil => rfl
  | cons m ms ih =>
    cases m with
    | sync => by_cases hr : resumes ms = 0 <;> simp [before, resumes, ih, hr]
    | resume => simp [before, resumes]

theorem mem_behind_append_sync {t u : Ticket} (h : u ∈ behind (ms ++ [.sync t])) :
    u ∈ behind ms ∨ u = t := by
  induction ms with
  | nil => simp [behind] at h
  | cons m ms ih =>
    cases m with
    | sync => exact ih h
    | resume =>
      simp only [cons_append, behind, tickets_append, mem_append, tickets, mem_singleton] at h
      exact h

theorem behind_append_resume (v : Nat) (x : Int) (h : resumes ms = 0) :
    behind (ms ++ [.resume v x]) = [] := by
  induction ms with
  | nil => rfl
  | cons m ms ih =>
    cases m with
    | sync => exact ih h
    | resume => exact absurd h (Nat.succ_ne_zero _)

theorem before_append_resume (ms : List Msg) (v : Nat) (x : Int) :
    before (ms ++ [.resume v x]) = before ms := by
  induction ms with
  | nil => rfl
  | cons m ms ih => cases m <;> simp [before, ih]

variable {s t : State} {ts : List Ticket}

open State

theorem mem_waiting_append_sync {new k : Ticket}
    (h : k ∈ t.waiting) (hbox : t.mailbox = s.mailbox ++ [.sync new]) (hdoing : t.doing = s.doing) :
    k = new ∨ k ∈ s.waiting := by
  simp only [waiting, hbox, hdoing, tickets_append, tickets, mem_append, mem_singleton] at h ⊢
  tauto

/-- The fold behind `cover`: the result is above the start and every ticket, and is one of them. -/
theorem cover_fold (ts : List Ticket) (acc : Nat × Int) :
    let out := ts.foldl (fun acc t => (max acc.1 t.upto, max acc.2 t.stamp)) acc
    (∀ t ∈ ts, t.upto ≤ out.1) ∧ acc.1 ≤ out.1 ∧ (out.1 = acc.1 ∨ ∃ t ∈ ts, out.1 = t.upto) ∧
      ∀ x : Int, acc.2 ≤ x → (∀ t ∈ ts, t.stamp ≤ x) → out.2 ≤ x := by
  induction ts generalizing acc with
  | nil => exact ⟨by simp, le_rfl, .inl rfl, fun x hx _ => hx⟩
  | cons t ts ih =>
    obtain ⟨hle, hacc, hmem, hstamp⟩ := ih (max acc.1 t.upto, max acc.2 t.stamp)
    rw [foldl_cons]
    refine ⟨forall_mem_cons.2 ⟨by omega, hle⟩, by omega, ?_, ?_⟩
    · rcases hmem with h | ⟨u, hu, h⟩
      · rcases le_total acc.1 t.upto with ha | ha
        · exact .inr ⟨t, mem_cons_self, by rw [h, max_eq_right ha]⟩
        · exact .inl (by rw [h, max_eq_left ha])
      · exact .inr ⟨u, mem_cons_of_mem _ hu, h⟩
    · intro x hx hts
      exact hstamp x (max_le hx (hts t mem_cons_self)) fun u hu => hts u (mem_cons_of_mem _ hu)

theorem le_cover {t : Ticket} (h : t ∈ ts) : t.upto ≤ (cover ts).1 :=
  (cover_fold ts (0, 0)).1 t h

theorem max_cover (d : Nat) (ts : List Ticket) :
    max d (cover ts).1 = d ∨ ∃ t ∈ ts, max d (cover ts).1 = t.upto := by
  rcases (cover_fold ts (0, 0)).2.2.1 with h | ⟨t, ht, h⟩
  · exact .inl (max_eq_left (by rw [cover, h]; exact Nat.zero_le d))
  · rcases le_total d (cover ts).1 with hd | hd
    · exact .inr ⟨t, ht, by rw [max_eq_right hd]; exact h⟩
    · exact .inl (max_eq_left hd)

variable {x : Int}

theorem cover_stamp_le (h0 : 0 ≤ x) (h : ∀ t ∈ ts, t.stamp ≤ x) : (cover ts).2 ≤ x :=
  (cover_fold ts (0, 0)).2.2.2 x h0 h

/-! ## Numbering -/

/-- The pairs of a record and a stamp the durable mark has, or may be raised to. -/
inductive Level (s : State) : Nat → Int → Prop
  | durable : Level s s.durable s.durableAt
  | ticket {t : Ticket} (h : t ∈ s.waiting) : Level s t.upto t.stamp
  | resume {v : Nat} {x : Int} (h : .resume v x ∈ s.mailbox) : Level s v x

variable {v : Nat}

theorem Level.exists_of_eq {w : Nat} (h : Level s v x) (hw : w = v) : ∃ y, Level s w y :=
  ⟨x, hw ▸ h⟩

/-- How records, groups and marks lie: the live groups are apart from each other and no mark falls
    inside one, so that a group is above a mark as a whole or not at all. -/
structure SeqInv (s : State) : Prop where
  next_pos : 0 < s.next
  applied_lt : s.applied < s.next
  level_lt : ∀ {v x}, Level s v x → v < s.next
  live_le : ∀ u ∈ s.live, u ≤ s.applied
  live_last : ∀ u ∈ s.live, ∃ b, s.birth u = some b ∧ ∀ q, s.birth q = some b → q ≤ u
  apart : ∀ {v x}, Level s v x → ∀ u ∈ s.live, v < u → ∀ q, s.birth q = s.birth u → v < q
  sorted : s.live.Pairwise (· > ·)
  birth_lt : ∀ {q b}, s.birth q = some b → q < s.next ∧ b.index < s.wal
  birth_le : ∀ {q b}, s.birth q = some b → q ≤ max s.durable s.applied
  birth_eq : ∀ {q q' b b'}, s.birth q = some b → s.birth q' = some b' → b.index = b'.index → b = b'
  /-- What is not durable is undone or still listed. -/
  covered : ∀ {q b}, s.birth q = some b → s.durable < q →
    b.index ∈ s.undone ∨ ∃ u ∈ s.live, s.birth u = some b
  undone_lt : ∀ i ∈ s.undone, i < s.wal

variable {u n : Nat} {stamp : Int}

theorem SeqInv.live_lt (h : SeqInv s) (hu : u ∈ s.live) : u < s.next :=
  lt_of_le_of_lt (h.live_le u hu) h.applied_lt

/-- The marks after a step are the applied mark and marks there were, when its tickets and messages
    are. -/
theorem Level.origin (hmark : ∃ y, Level s t.durable y)
    (hwaiting : ∀ k ∈ t.waiting, k.upto = s.applied ∨ k ∈ s.waiting)
    (hresume : ∀ v x, .resume v x ∈ t.mailbox → v = s.applied ∨ .resume v x ∈ s.mailbox)
    (h : Level t v x) : v = s.applied ∨ ∃ y, Level s v y := by
  cases h with
  | durable => exact .inr hmark
  | ticket h => exact (hwaiting _ h).imp_right fun h => ⟨_, .ticket h⟩
  | resume h => exact (hresume _ _ h).imp_right fun h => ⟨_, .resume h⟩

/-- A step that numbers nothing keeps the numbering, when every mark it makes was a mark before. -/
theorem SeqInv.shrink (h : SeqInv s) (hnext : t.next = s.next)
    (happlied : t.applied = s.applied) (hbirth : t.birth = s.birth) (hlive : t.live.Sublist s.live)
    (hwal : s.wal ≤ t.wal) (hdurable : s.durable ≤ t.durable)
    (hcovered : ∀ {q b}, s.birth q = some b → t.durable < q →
      b.index ∈ t.undone ∨ ∃ u ∈ t.live, s.birth u = some b)
    (hundone : ∀ i ∈ t.undone, i < t.wal) (hmark : ∃ y, Level s t.durable y)
    (hwaiting : ∀ k ∈ t.waiting, k.upto = s.applied ∨ k ∈ s.waiting)
    (hresume : ∀ v x, .resume v x ∈ t.mailbox → v = s.applied ∨ .resume v x ∈ s.mailbox) :
    SeqInv t where
  next_pos := hnext ▸ h.next_pos
  applied_lt := by rw [happlied, hnext]; exact h.applied_lt
  level_lt := by
    intro v x hv
    rw [hnext]
    rcases hv.origin hmark hwaiting hresume with rfl | ⟨y, hy⟩
    · exact h.applied_lt
    · exact h.level_lt hy
  live_le := fun u hu => happlied ▸ h.live_le u (hlive.subset hu)
  live_last := by
    rw [hbirth]
    exact fun u hu => h.live_last u (hlive.subset hu)
  apart := by
    intro v x hv u hu hlt q hq
    rw [hbirth] at hq
    rcases hv.origin hmark hwaiting hresume with rfl | ⟨y, hy⟩
    · exact absurd (h.live_le u (hlive.subset hu)) (by omega)
    · exact h.apart hy u (hlive.subset hu) hlt q hq
  sorted := h.sorted.sublist hlive
  birth_lt := by
    intro q b hq
    rw [hbirth] at hq
    have := h.birth_lt hq
    rw [hnext]
    omega
  birth_le := by
    intro q b hq
    rw [hbirth] at hq
    have := h.birth_le hq
    rw [happlied]
    omega
  birth_eq := by
    intro q q' b b' hq hq'
    rw [hbirth] at hq hq'
    exact h.birth_eq hq hq'
  covered := by
    intro q b hq
    rw [hbirth] at hq ⊢
    exact hcovered hq
  undone_lt := hundone

namespace State

variable {q : Nat} {b : Birth}

theorem born_eq_some (h : s.born n stamp q = some b) :
    (s.next ≤ q ∧ q < s.next + n ∧ b = ⟨s.wal, stamp⟩) ∨ s.birth q = some b := by
  unfold born at h
  split at h
  · next hq => exact .inl ⟨hq.1, hq.2, (Option.some.inj h).symm⟩
  · exact .inr h

theorem born_of_lt (h : q < s.next) : s.born n stamp q = s.birth q :=
  if_neg fun hq => absurd hq.1 (by omega)

theorem born_of_mem (h : s.next ≤ q) (h' : q < s.next + n) :
    s.born n stamp q = some ⟨s.wal, stamp⟩ :=
  if_pos ⟨h, h'⟩

end State

theorem SeqInv.born_old (h : SeqInv s) {q : Nat} {b : Birth}
    (hb : b.index < s.wal) : s.born n stamp q = some b ↔ s.birth q = some b := by
  constructor
  · intro hq
    rcases born_eq_some hq with ⟨-, -, rfl⟩ | hq
    · exact absurd hb (lt_irrefl _)
    · exact hq
  · intro hq
    rw [born_of_lt (h.birth_lt hq).1]
    exact hq

theorem SeqInv.live_born (h : SeqInv s)
    (hu : u ∈ s.live) : s.born n stamp u = s.birth u :=
  born_of_lt (h.live_lt hu)

theorem SeqInv.live_last_born (h : SeqInv s) (hu : u ∈ s.live) :
    ∃ b, s.born n stamp u = some b ∧ ∀ q, s.born n stamp q = some b → q ≤ u := by
  obtain ⟨b, hb, hlast⟩ := h.live_last u hu
  refine ⟨b, by rw [h.live_born hu, hb], fun q hq => ?_⟩
  exact hlast q ((h.born_old (h.birth_lt hb).2).1 hq)

theorem SeqInv.apart_born (h : SeqInv s)
    (hv : Level s v x) (hu : u ∈ s.live) (hlt : v < u) {q : Nat}
    (hq : s.born n stamp q = s.born n stamp u) : v < q := by
  obtain ⟨b, hb, -⟩ := h.live_last u hu
  rw [h.live_born hu, hb] at hq
  exact h.apart hv u hu hlt q (by rw [hb]; exact (h.born_old (h.birth_lt hb).2).1 hq)

/-- In a list from the newest to the oldest, everything above a mark comes before everything
    else. -/
theorem mem_takeWhile_of_sorted {α : Type*} {f : α → Nat} {xs : List α} {d : Nat} {x : α}
    (hsorted : xs.Pairwise fun a b => f a > f b) (hx : x ∈ xs) (hlt : d < f x) :
    x ∈ xs.takeWhile (fun y => d < f y) := by
  induction xs with
  | nil => cases hx
  | cons w xs ih =>
    obtain ⟨hw, hrest⟩ := pairwise_cons.1 hsorted
    rcases mem_cons.1 hx with rfl | hx
    · rw [takeWhile_cons_of_pos (by simpa using hlt)]
      exact mem_cons_self
    · have hnewer := hw x hx
      rw [takeWhile_cons_of_pos (by simpa using (by omega : d < f w))]
      exact mem_cons_of_mem _ (ih hrest hx)

theorem SeqInv.mem_victims (h : SeqInv s) {q : Nat} {b : Birth} (hu : u ∈ s.live)
    (hb : s.birth u = some b) (hq : s.birth q = some b) (hlt : s.durable < q) :
    b.index ∈ s.victims := by
  obtain ⟨b', hb', hlast⟩ := h.live_last u hu
  obtain rfl : b = b' := Option.some.inj (hb.symm.trans hb')
  have hu' : s.durable < u := lt_of_lt_of_le hlt (hlast q hq)
  exact ⟨u, mem_takeWhile_of_sorted h.sorted hu hu', b, hb, rfl⟩

/-- The numbering after a batch of `n` records, whatever marks the step sets, when the old marks
    stay marks and the new ones are the batch's last record. -/
theorem SeqInv.batch (h : SeqInv s)
    (hnext : t.next = s.next + n) (hbirth : t.birth = s.born n stamp) (hwal : t.wal = s.wal + 1)
    (hundone : t.undone = s.undone) (happlied : t.applied = s.next + n - 1 ∨ t.applied = s.applied)
    (hle : s.next + n - 1 ≤ max t.durable t.applied) (hdurable : s.durable ≤ t.durable)
    (happle : s.applied ≤ t.applied)
    (hlive : t.live = s.live ∨
      (t.live = (s.next + n - 1) :: s.live ∧ t.applied = s.next + n - 1 ∧ 0 < n))
    (hcovered : t.durable < s.next + n - 1 → 0 < n → s.next + n - 1 ∈ t.live)
    (hlevel : ∀ {v x}, Level t v x → v = s.next + n - 1 ∨ ∃ y, Level s v y) : SeqInv t := by
  have happ := h.applied_lt
  have hmem : ∀ u ∈ t.live, (u = s.next + n - 1 ∧ 0 < n) ∨ u ∈ s.live := by
    intro u hu
    rcases hlive with hl | ⟨hl, -, hn⟩
    · exact .inr (hl ▸ hu)
    · rw [hl] at hu
      exact (mem_cons.1 hu).imp_left fun h => ⟨h, hn⟩
  have hnew : ∀ {q}, s.born n stamp q = some ⟨s.wal, stamp⟩ → s.next ≤ q ∧ q < s.next + n := by
    intro q hq
    rcases born_eq_some hq with ⟨h1, h2, -⟩ | hq
    · exact ⟨h1, h2⟩
    · exact absurd (h.birth_lt hq).2 (lt_irrefl _)
  refine
    { next_pos := by omega
      applied_lt := by omega
      level_lt := ?_
      live_le := ?_
      live_last := ?_
      apart := ?_
      sorted := ?_
      birth_lt := ?_
      birth_le := ?_
      birth_eq := ?_
      covered := ?_
      undone_lt := ?_ }
  · intro v x hv
    rcases hlevel hv with rfl | ⟨y, hy⟩
    · omega
    · have := h.level_lt hy
      omega
  · intro u hu
    rcases hlive with hl | ⟨hl, ha, -⟩
    · exact le_trans (h.live_le u (hl ▸ hu)) happle
    · rw [hl] at hu
      rcases mem_cons.1 hu with rfl | hu
      · omega
      · exact le_trans (h.live_le u hu) happle
  · intro u hu
    rw [hbirth]
    rcases hmem u hu with ⟨rfl, hn⟩ | hu
    · refine ⟨_, born_of_mem (by omega) (by omega), fun q hq => ?_⟩
      have := hnew hq
      omega
    · exact h.live_last_born hu
  · intro v x hv u hu hlt q hq
    rw [hbirth] at hq
    rcases hlevel hv with rfl | ⟨y, hy⟩
    · -- The batch's own end is below no group.
      rcases hmem u hu with ⟨rfl, -⟩ | hu
      · exact absurd hlt (lt_irrefl _)
      · have := h.live_lt hu
        omega
    · rcases hmem u hu with ⟨rfl, hn⟩ | hu
      · have hend : s.born n stamp (s.next + n - 1) = some ⟨s.wal, stamp⟩ :=
          born_of_mem (by omega) (by omega)
        have := h.level_lt hy
        have := hnew (hq.trans hend)
        omega
      · exact h.apart_born hy hu hlt hq
  · rcases hlive with hl | ⟨hl, -, hn⟩
    · rw [hl]
      exact h.sorted
    · rw [hl]
      refine pairwise_cons.2 ⟨fun u hu => ?_, h.sorted⟩
      have := h.live_lt hu
      omega
  · intro q b hq
    rw [hbirth] at hq
    rcases born_eq_some hq with ⟨h1, h2, rfl⟩ | hq
    · exact ⟨by omega, by dsimp only; omega⟩
    · have := h.birth_lt hq
      omega
  · intro q b hq
    rw [hbirth] at hq
    rcases born_eq_some hq with ⟨h1, h2, rfl⟩ | hq
    · omega
    · have := h.birth_le hq
      omega
  · intro q q' b b' hq hq' heq
    rw [hbirth] at hq hq'
    rcases born_eq_some hq with ⟨-, -, rfl⟩ | hq <;>
      rcases born_eq_some hq' with ⟨-, -, rfl⟩ | hq'
    · rfl
    · exact absurd (h.birth_lt hq').2 (by rw [← heq]; exact lt_irrefl _)
    · exact absurd (h.birth_lt hq).2 (by rw [heq]; exact lt_irrefl _)
    · exact h.birth_eq hq hq' heq
  · intro q b hq hlt
    rw [hbirth] at hq
    rw [hbirth, hundone]
    rcases born_eq_some hq with ⟨h1, h2, rfl⟩ | hq
    · exact .inr ⟨_, hcovered (by omega) (by omega), born_of_mem (by omega) (by omega)⟩
    refine (h.covered hq (lt_of_le_of_lt hdurable hlt)).imp_right ?_
    rintro ⟨u, hu, hb⟩
    refine ⟨u, ?_, by rw [h.live_born hu, hb]⟩
    rcases hlive with hl | ⟨hl, -, -⟩
    · exact hl ▸ hu
    · rw [hl]
      exact mem_cons_of_mem _ hu
  · intro i hi
    rw [hundone] at hi
    have := h.undone_lt i hi
    omega

variable {fences stamps : Prop}

/-- A ticket that waits after a step waited before it, or is made by the step: it waits for
    everything applied. -/
theorem Step.waiting_cases (hstep : Step fences stamps s t) {k : Ticket} (hk : k ∈ t.waiting) :
    k ∈ s.waiting ∨ k.upto = t.applied ∧ k.stamp = t.clock ∧
      ∀ q ∈ k.seqs, s.next ≤ q ∧ q ≤ t.applied ∧ ∃ b, t.birth q = some b := by
  cases hstep with
  | land n stamp seqs hn hstamp hseqs =>
    rcases mem_waiting_append_sync hk rfl rfl with rfl | hk
    · refine .inr ⟨rfl, rfl, fun q hq => ?_⟩
      obtain ⟨hge, hlt⟩ := hseqs q hq
      exact ⟨hge, Nat.le_sub_one_of_lt hlt, _, born_of_mem hge hlt⟩
    · exact .inl hk
  | duplicate =>
    rcases mem_waiting_append_sync hk rfl rfl with rfl | hk
    · exact .inr ⟨rfl, rfl, fun q hq => absurd hq (Set.notMem_empty q)⟩
    · exact .inl hk
  | fence => exact .inl (by simpa only [waiting, State.fence, tickets_append, tickets,
    append_nil] using hk)
  | takeResume v x ms hdoing hbox => exact .inl (by simpa only [waiting, hbox, tickets] using hk)
  | takeSync u ms hdoing hbox =>
    rw [waiting, tickets_rest, nil_append, tickets_taken] at hk
    exact .inl (by simpa only [waiting, hbox, hdoing, tickets, Doing.tickets, append_nil] using hk)
  | syncOk ts start hdoing | syncFail ts start hdoing | done failed hdoing =>
    exact .inl (by simpa only [waiting, hdoing, Doing.tickets] using hk)
  | answer u ts acked hdoing | refuse u ts hdoing =>
    simp only [waiting, hdoing, Doing.tickets, mem_append, mem_cons] at hk ⊢
    tauto
  | _ => exact .inl hk

theorem Step.resume_cases (hstep : Step fences stamps s t) (hr : .resume v x ∈ t.mailbox) :
    .resume v x ∈ s.mailbox ∨ v = t.applied ∧ x = t.clock ∧ t = s.fence t.wal t.synced := by
  cases hstep with
  | land | duplicate => exact .inl (by simpa [State.land] using hr)
  | fence =>
    simp only [State.fence, mem_append, mem_singleton, Msg.resume.injEq] at hr
    exact hr.imp_right fun ⟨hv, hx⟩ => ⟨hv, hx, rfl⟩
  | takeResume v' x' ms hdoing hbox =>
    rw [hbox]
    exact .inl (mem_cons_of_mem _ hr)
  | takeSync u ms hdoing hbox =>
    rw [hbox]
    exact .inl (mem_cons_of_mem _ (mem_rest hr))
  | _ => exact .inl hr

theorem SeqInv.step (h : SeqInv s) (hstep : Step fences stamps s t) : SeqInv t := by
  have hwaiting : ∀ k ∈ t.waiting, k.upto = t.applied ∨ k ∈ s.waiting :=
    fun k hk => (hstep.waiting_cases hk).symm.imp_left And.left
  have hresume : ∀ v x, .resume v x ∈ t.mailbox → v = t.applied ∨ .resume v x ∈ s.mailbox :=
    fun v x hr => (hstep.resume_cases hr).symm.imp_left And.left
  have hundone : ∀ wal, s.wal ≤ wal → ∀ i ∈ s.undone, i < wal :=
    fun wal hwal i hi => lt_of_lt_of_le (h.undone_lt i hi) hwal
  cases hstep with
  | quiet wal synced hwal =>
    exact h.shrink rfl rfl rfl (Sublist.refl _) hwal le_rfl h.covered (hundone wal hwal)
      ⟨_, .durable⟩ hwaiting hresume
  | skip n stamp =>
    have hlevel : ∀ {v x}, Level { s with next := s.next + n, clock := stamp } v x →
        Level s v x := by
      rintro v x (_ | ht | hr)
      · exact .durable
      · exact .ticket ht
      · exact .resume hr
    exact
      { h with
        next_pos := Nat.add_pos_left h.next_pos n
        applied_lt := lt_of_lt_of_le h.applied_lt (Nat.le_add_right _ n)
        level_lt := fun hv => lt_of_lt_of_le (h.level_lt (hlevel hv)) (Nat.le_add_right _ n)
        apart := fun hv => h.apart (hlevel hv)
        birth_lt := fun hq =>
          ⟨lt_of_lt_of_le (h.birth_lt hq).1 (Nat.le_add_right _ n), (h.birth_lt hq).2⟩ }
  | land n stamp seqs hn =>
    have happ := h.applied_lt
    refine h.batch rfl rfl rfl rfl (.inl rfl) (le_max_right _ _) le_rfl
      (show s.applied ≤ s.next + n - 1 by omega) (.inr ⟨rfl, rfl, hn⟩)
      (fun _ _ => mem_cons_self) ?_
    rintro v x (_ | hk | hr)
    · exact .inr ⟨_, .durable⟩
    · exact (hwaiting _ hk).imp_right fun hk => ⟨_, .ticket hk⟩
    · exact (hresume _ _ hr).imp_right fun hr => ⟨_, .resume hr⟩
  | landSynced n =>
    refine h.batch rfl rfl rfl rfl (.inr rfl) (le_trans (le_max_right _ _) (le_max_left _ _))
      (le_max_left _ _) le_rfl (.inl rfl) (fun hlt => ?_) ?_
    · exact absurd hlt (not_lt.2 (le_max_right _ _))
    rintro v x (_ | hk | hr)
    · rcases max_choice s.durable (s.next + n - 1) with hm | hm
      · exact .inr (Level.durable.exists_of_eq hm)
      · exact .inl hm
    · exact .inr ⟨_, .ticket hk⟩
    · exact .inr ⟨_, .resume hr⟩
  | trim live hsub hkeep =>
    refine h.shrink rfl rfl rfl hsub le_rfl le_rfl ?_ h.undone_lt ⟨_, .durable⟩ hwaiting hresume
    intro q b hq hlt
    refine (h.covered hq hlt).imp_right ?_
    rintro ⟨u, hu, hb⟩
    -- A group that holds a record above the mark ends above the mark.
    obtain ⟨b', hb', hlast⟩ := h.live_last u hu
    obtain rfl : b = b' := Option.some.inj (hb.symm.trans hb')
    exact ⟨u, hkeep u hu (lt_of_lt_of_le hlt (hlast q hq)), hb⟩
  | fence wal synced halarm hwal =>
    refine h.shrink rfl rfl rfl (nil_sublist _) hwal le_rfl ?_ ?_ ⟨_, .durable⟩ hwaiting hresume
    · intro q b hq hlt
      exact .inl ((h.covered hq hlt).elim .inl fun ⟨u, hu, hb⟩ =>
        .inr (h.mem_victims hu hb hq hlt))
    · rintro i (hi | ⟨u, hu, b, hb, rfl⟩)
      · exact hundone wal hwal i hi
      · exact lt_of_lt_of_le (h.birth_lt hb).2 hwal
  | takeResume v x ms hdoing hbox =>
    refine h.shrink rfl rfl rfl (Sublist.refl _) le_rfl
      (le_max_left _ _) ?_ h.undone_lt ?_ hwaiting hresume
    · exact fun hq hlt => h.covered hq (lt_of_le_of_lt (le_max_left _ _) hlt)
    · rcases max_choice s.durable v with hm | hm
      · exact Level.durable.exists_of_eq hm
      · have hr : .resume v x ∈ s.mailbox := by rw [hbox]; exact mem_cons_self
        exact (Level.resume hr).exists_of_eq hm
  | syncOk ts start hdoing =>
    refine h.shrink rfl rfl rfl (Sublist.refl _) le_rfl
      (le_max_left _ _) ?_ h.undone_lt ?_ hwaiting hresume
    · exact fun hq hlt => h.covered hq (lt_of_le_of_lt (le_max_left _ _) hlt)
    · rcases max_cover s.durable ts with hm | ⟨t, ht, hm⟩
      · exact Level.durable.exists_of_eq hm
      · have ht' : t ∈ s.waiting := mem_append_right _ (by rw [hdoing]; exact ht)
        exact (Level.ticket ht').exists_of_eq hm
  | _ =>
    exact h.shrink rfl rfl rfl (Sublist.refl _) le_rfl le_rfl h.covered h.undone_lt
      ⟨_, .durable⟩ hwaiting hresume

end GroupCommit
