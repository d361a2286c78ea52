import Ankusa.Edge.Batcher
import Mathlib.Algebra.Order.Group.Int

set_option autoImplicit false

/-! # What the batcher keeps

`batcher_invariant` says of every state reached:

* a caller that was admitted has been answered once, or is held once (buffered or in flight);
* the totals are those of what is held, and within the bounds but for one record that is too big by
  itself;
* what is buffered waits for a commit in flight or for a flush timer that is set;
* a buffered record with a deadline has the expiry timer set for it or for an earlier one. -/

namespace Ankusa.Batcher

open List Slots Run Entry

open Slots (total)

variable {R : Type}

/-! ## What is held and who is answered -/

/-- The totals are those of what is held. -/
structure Accounts (s : State R) : Prop where
  count : s.count = s.buffer.length
  bytes : s.bytes = total Entry.size s.buffer
  inflightCount : s.inflightCount = total (fun b => b.entries.length) s.inflight
  inflightBytes : s.inflightBytes = total Batch.bytes s.inflight
  batches : ∀ b ∈ s.inflight, b.bytes = total Entry.size b.entries

/-- From `s` to `t` records are only moved and answered, and the totals follow. -/
structure Moves (s t : State R) : Prop where
  accounts : Accounts s → Accounts t
  callers : Accounts s →
    (t.answered ++ t.items.map Entry.caller).Perm (s.answered ++ s.items.map Entry.caller)
  items : Accounts s → t.items.Subperm s.items
  admitted : t.admitted = s.admitted
  nextCaller : t.nextCaller = s.nextCaller

variable {cfg : Config} {s t u : State R}

theorem Moves.refl (s : State R) : Moves s s := ⟨id, fun _ => .refl _, fun _ => .refl _, rfl, rfl⟩

theorem Moves.trans (h : Moves s t) (h' : Moves t u) : Moves s u where
  accounts := fun ha => h'.accounts (h.accounts ha)
  callers := fun ha => (h'.callers (h.accounts ha)).trans (h.callers ha)
  items := fun ha => (h'.items (h.accounts ha)).trans (h.items ha)
  admitted := h'.admitted.trans h.admitted
  nextCaller := h'.nextCaller.trans h.nextCaller

/-- What is held, the totals and the answers do not depend on the timers and the clock. -/
theorem Moves.timed {timer expireTimer : Option Timer} {expireAt : Option Int} {now : Int}
    {nextRef : Nat}
    {timers mail : List Timer} :
    Moves s { s with timer, expireTimer, expireAt, now, nextRef, timers, mail } :=
  ⟨fun h => { h with }, fun _ => .refl _, fun _ => .refl _, rfl, rfl⟩

theorem moves_cancelTimer (s : State R) : Moves s (cancelTimer s) := by
  unfold cancelTimer
  split
  · exact .timed
  · exact .refl s

theorem moves_armTimer (s : State R) : Moves s (armTimer cfg s) := .timed

theorem moves_cancelExpiry (s : State R) : Moves s (cancelExpiry s) := by
  unfold cancelExpiry
  split
  · exact .timed
  · exact .refl s

theorem moves_armExpiry (s : State R) (deadline : Option Int) : Moves s (armExpiry s deadline) := by
  cases deadline with
  | none => exact .refl s
  | some => exact .timed

theorem moves_advanceExpiry (s : State R) (deadline : Option Int) :
    Moves s (advanceExpiry s deadline) := by
  unfold advanceExpiry
  split_ifs
  · exact moves_armExpiry s deadline
  · exact (moves_cancelExpiry s).trans (moves_armExpiry _ deadline)
  · exact .refl s

theorem moves_ensureExpiry (s : State R) (caller : Nat) (deadline : Option Int) :
    Moves s (ensureExpiry s caller deadline) := by
  unfold ensureExpiry
  split
  · split_ifs
    · exact moves_advanceExpiry s deadline
    · exact .refl s
  · exact .refl s

/-- The expired records of the buffer are answered and go. -/
theorem moves_dropExpired (s : State R) : Moves s (dropExpired s) := by
  unfold dropExpired
  split_ifs with hzero
  · exact .refl s
  have hsplit := filter_append_perm (passed s.now) s.buffer
  refine ⟨fun h => ?_, fun _ => ?_, fun _ => ?_, rfl, rfl⟩
  · have htotal := total_filter size (passed s.now) s.buffer
    have hbytes := h.bytes
    refine { h with count := rfl, bytes := ?_ }
    dsimp only
    omega
  · have hcallers := (hsplit.append_right (s.inflight.flatMap Batch.entries)).map caller
    simp only [State.answered, State.items, replyAll, map_append, map_map,
      append_assoc] at hcallers ⊢
    exact hcallers.append_left _
  · exact (filter_sublist.append (Sublist.refl _)).subperm

theorem splitBatch_perm (cfg : Config) (buffer : List Entry) :
    ((splitBatch cfg buffer).2 ++ (splitBatch cfg buffer).1).Perm buffer := by
  have hsplit :
      (buffer.reverse.take cfg.maxBatch ++ buffer.reverse.drop cfg.maxBatch).Perm buffer := by
    rw [take_append_drop]
    exact buffer.reverse_perm
  exact ((reverse_perm _).append_right _).trans (perm_append_comm.trans hsplit)

theorem moves_handOver (s : State R) : Moves s (handOver cfg s) := by
  have hperm := splitBatch_perm cfg s.buffer
  have hitems : (handOver cfg s).items.Perm s.items := by
    simp only [handOver, State.items, flatMap_cons, ← append_assoc]
    exact hperm.append_right _
  refine ⟨fun h => ?_, fun _ => (hitems.map _).append_left _, fun _ => hitems.subperm, rfl, rfl⟩
  have hlength := hperm.length_eq
  have htotal := total_perm size hperm
  rw [length_append] at hlength
  rw [total_append] at htotal
  have hbytes := h.bytes
  have hic := h.inflightCount
  have hib := h.inflightBytes
  refine ⟨rfl, ?_, ?_, ?_, forall_mem_cons.2 ⟨rfl, h.batches⟩⟩
  · simp only [handOver]
    omega
  · simp only [handOver, total_cons]
    omega
  · simp only [handOver, total_cons]
    omega

theorem moves_startCommit (s : State R) : Moves s (startCommit cfg s) := by
  have hdrop := (moves_cancelTimer s).trans (moves_dropExpired _)
  unfold startCommit
  dsimp only
  split_ifs
  · exact hdrop
  · exact hdrop.trans (moves_handOver _)

theorem moves_maybeFlush (s : State R) : Moves s (maybeFlush cfg s) := by
  unfold maybeFlush
  split_ifs
  · exact .refl s
  · exact moves_startCommit s
  · exact moves_startCommit s
  · exact moves_armTimer s
  · exact .refl s

theorem moves_afterBatch (s : State R) : Moves s (afterBatch cfg s) := by
  unfold afterBatch
  split_ifs
  · exact moves_startCommit s
  · exact .refl s

theorem moves_flush (s : State R) : Moves s (flush cfg s) := by
  have hnone : Moves s { s with timer := none } := .timed
  unfold flush
  dsimp only
  split_ifs
  · exact hnone.trans (moves_startCommit _)
  · exact hnone

theorem moves_expire (s : State R) : Moves s (expire s) :=
  ((moves_cancelExpiry s).trans (moves_dropExpired _)).trans (moves_armExpiry _ _)

variable {i : Nat} {b : Batch} {replies : List (Nat × Reply R)} {a deadline : Option Int}

/-- The batch of a commit is answered, one answer to each of its records. -/
theorem moves_settle (hget : s.inflight[i]? = some b)
    (hreplies : replies.map Prod.fst = b.entries.map Entry.caller) :
    Moves s { settle s i b with answers := s.answers ++ replies } := by
  have hperm := perm_eraseIdx hget
  have hitems :
      s.items.Perm (b.entries ++ (s.buffer ++ (s.inflight.eraseIdx i).flatMap Batch.entries)) := by
    refine ((hperm.flatMap_right Batch.entries).append_left s.buffer).trans ?_
    rw [flatMap_cons, ← append_assoc, ← append_assoc]
    exact perm_append_comm.append_right _
  refine ⟨fun h => ?_, fun _ => ?_, fun _ => ?_, rfl, rfl⟩
  · have hcount := total_eraseIdx (fun b : Batch => b.entries.length) hget
    have hbytes := total_eraseIdx Batch.bytes hget
    have hic := h.inflightCount
    have hib := h.inflightBytes
    refine ⟨h.count, h.bytes, ?_, ?_, fun b' hb' => h.batches b' (mem_of_mem_eraseIdx hb')⟩
    all_goals
      simp only [settle]
      omega
  · have hcallers := hitems.map caller
    rw [map_append, ← hreplies] at hcallers
    simp only [State.answered, map_append, append_assoc]
    exact (hcallers.append_left _).symm
  · exact (sublist_append_right b.entries _).subperm.trans hitems.symm.subperm

/-! ## Timers -/

/-- The timers the state names are set: they run, or their message waits. -/
structure Armed (s : State R) : Prop where
  timer : ∀ t ∈ s.timer, t.signal = .flush ∧ t ∈ s.signals
  expireTimer : ∀ t ∈ s.expireTimer, t.signal = .expire ∧ t ∈ s.signals ∧
    ∃ a ∈ s.expireAt, t.time ≤ max a s.now

/-- The expiry timer is set for no later than the deadlines of these records. -/
def Watched (s : State R) (entries : List Entry) : Prop :=
  ∀ e ∈ entries, ∀ d ∈ e.deadline, s.expireTimer ≠ none ∧ ∃ a ∈ s.expireAt, a ≤ d

/-- What is buffered waits for a commit in flight or for the flush timer. -/
def Driven (s : State R) : Prop := s.buffer ≠ [] → s.inflight ≠ [] ∨ s.timer ≠ none

/-- From `s` to `t` the expiry timer stays, and the buffer only loses records. -/
structure Keeps (s t : State R) : Prop where
  armed : Armed s → Armed t
  expireTimer : t.expireTimer = s.expireTimer
  expireAt : t.expireAt = s.expireAt
  buffer : t.buffer.Sublist s.buffer

theorem Keeps.refl (s : State R) : Keeps s s := ⟨id, rfl, rfl, .refl _⟩

theorem Keeps.trans (h : Keeps s t) (h' : Keeps t u) : Keeps s u where
  armed := fun ha => h'.armed (h.armed ha)
  expireTimer := h'.expireTimer.trans h.expireTimer
  expireAt := h'.expireAt.trans h.expireAt
  buffer := h'.buffer.trans h.buffer

variable {entries : List Entry}

theorem Keeps.watched (h : Keeps s t) (hw : Watched s entries) : Watched t entries := by
  unfold Watched at hw ⊢
  rw [h.expireTimer, h.expireAt]
  exact hw

theorem keeps_cancelTimer (s : State R) : Keeps s (cancelTimer s) := by
  unfold cancelTimer
  split
  next t htimer =>
    refine ⟨fun h => ⟨nofun, fun e he => ?_⟩, rfl, rfl, .refl _⟩
    obtain ⟨hsignal, hmem, htime⟩ := h.expireTimer e he
    refine ⟨hsignal, ?_, htime⟩
    -- A flush timer is cancelled, which is not the expiry timer.
    have hne : e ≠ t := by
      rintro rfl
      rw [(h.timer e htimer).1] at hsignal
      cases hsignal
    rcases mem_append.1 hmem with hrun | hmail
    · exact mem_append_left _ (mem_filter.2 ⟨hrun, decide_eq_true hne⟩)
    · exact mem_append_right _ hmail
  · exact .refl s

theorem keeps_armTimer (s : State R) : Keeps s (armTimer cfg s) := by
  refine ⟨fun h => ⟨fun t ht => ?_, fun t ht => ?_⟩, rfl, rfl, .refl _⟩
  · cases ht
    exact ⟨rfl, mem_cons_self⟩
  · obtain ⟨hsignal, hmem, htime⟩ := h.expireTimer t ht
    exact ⟨hsignal, mem_cons_of_mem _ hmem, htime⟩

theorem keeps_dropExpired (s : State R) : Keeps s (dropExpired s) := by
  unfold dropExpired
  split_ifs
  · exact .refl s
  · exact ⟨fun h => ⟨h.timer, h.expireTimer⟩, rfl, rfl, filter_sublist⟩

theorem keeps_handOver (s : State R) : Keeps s (handOver cfg s) := by
  refine ⟨fun h => ⟨h.timer, h.expireTimer⟩, rfl, rfl, ?_⟩
  have hdrop := (drop_sublist cfg.maxBatch s.buffer.reverse).reverse
  rwa [reverse_reverse] at hdrop

theorem keeps_startCommit (s : State R) : Keeps s (startCommit cfg s) := by
  have hdrop := (keeps_cancelTimer s).trans (keeps_dropExpired _)
  unfold startCommit
  dsimp only
  split_ifs
  · exact hdrop
  · exact hdrop.trans (keeps_handOver _)

theorem keeps_maybeFlush (cfg : Config) (s : State R) : Keeps s (maybeFlush cfg s) := by
  unfold maybeFlush
  split_ifs
  · exact .refl s
  · exact keeps_startCommit s
  · exact keeps_startCommit s
  · exact keeps_armTimer s
  · exact .refl s

theorem keeps_afterBatch (cfg : Config) (s : State R) : Keeps s (afterBatch cfg s) := by
  unfold afterBatch
  split_ifs
  · exact keeps_startCommit s
  · exact .refl s

section

variable (h : Accounts s)
include h

/-- A commit leaves nothing buffered unless it is in flight itself. -/
theorem startCommit_driven : Driven (startCommit cfg s) := by
  have hdrop := ((moves_cancelTimer s).trans (moves_dropExpired _)).accounts h
  unfold startCommit
  dsimp only
  split_ifs with hzero
  · intro hbuffer
    have hcount := hdrop.count
    rw [hzero] at hcount
    exact absurd (length_eq_zero_iff.1 (by omega)) hbuffer
  · exact fun _ => .inl (cons_ne_nil _ _)

theorem maybeFlush_driven : Driven (maybeFlush cfg s) := by
  unfold maybeFlush
  split_ifs with hslots hbatch hdelay htimer
  · intro _
    refine .inl fun hnil => ?_
    rw [hnil] at hslots
    exact absurd cfg.maxCommits_pos (Nat.not_lt.2 hslots)
  · exact startCommit_driven h
  · exact startCommit_driven h
  · exact fun _ => .inr (Option.some_ne_none _)
  · exact fun _ => .inr htimer

theorem afterBatch_driven : Driven (afterBatch cfg s) := by
  unfold afterBatch
  split_ifs with hcount
  · exact startCommit_driven h
  · intro hbuffer
    have hlength := h.count
    exact absurd (length_eq_zero_iff.1 (by omega)) hbuffer

theorem flush_driven : Driven (flush cfg s) := by
  unfold flush
  dsimp only
  split_ifs with hfree
  · exact startCommit_driven { h with }
  -- Either every slot is taken, and there is at least one, or nothing is buffered.
  intro hbuffer
  refine .inl fun hinflight => hfree ⟨?_, ?_⟩
  · rw [show s.inflight = [] from hinflight]
    exact cfg.maxCommits_pos
  · have hcount := h.count
    have hlength := length_pos_iff.2 (show s.buffer ≠ [] from hbuffer)
    omega

end

/-! ## The expiry timer -/

variable {d : Int}

theorem earlier_le_left {b : Option Int} (h : d ∈ a) : ∃ m ∈ earlier a b, m ≤ d := by
  obtain rfl := Option.mem_def.1 h
  cases b with
  | none => exact ⟨d, rfl, Int.le_refl d⟩
  | some b => exact ⟨min d b, rfl, Int.min_le_left d b⟩

theorem earlier_le_right {b : Option Int} (h : d ∈ b) : ∃ m ∈ earlier a b, m ≤ d := by
  obtain rfl := Option.mem_def.1 h
  cases a with
  | none => exact ⟨d, rfl, Int.le_refl d⟩
  | some a => exact ⟨min a d, rfl, Int.min_le_right a d⟩

variable {e : Entry}

theorem earliest_le (he : e ∈ entries) (hd : d ∈ e.deadline) : ∃ m ∈ earliest entries, m ≤ d := by
  induction entries with
  | nil => cases he
  | cons e' entries ih =>
    rcases mem_cons.1 he with rfl | he
    · exact earlier_le_left hd
    · obtain ⟨m, hm, hle⟩ := ih he
      obtain ⟨m', hm', hle'⟩ := earlier_le_right hm
      exact ⟨m', hm', hle'.trans hle⟩

/-- The expiry timer is cancelled, whatever became of it. -/
theorem armed_cancelExpiry (htimer : ∀ t ∈ s.timer, t.signal = .flush ∧ t ∈ s.signals)
    (hexpire : ∀ t ∈ s.expireTimer, t.signal = .expire) : Armed (cancelExpiry s) := by
  unfold cancelExpiry
  split
  next t ht =>
    refine ⟨fun f hf => ?_, nofun⟩
    obtain ⟨hsignal, hmem⟩ := htimer f hf
    refine ⟨hsignal, ?_⟩
    have hne : f ≠ t := by
      rintro rfl
      rw [hexpire f ht] at hsignal
      cases hsignal
    rcases mem_append.1 hmem with hrun | hmail
    · exact mem_append_left _ (mem_filter.2 ⟨hrun, decide_eq_true hne⟩)
    · exact mem_append_right _ hmail
  · next hnone => exact ⟨htimer, fun t ht => by rw [hnone] at ht; cases ht⟩

theorem armed_armExpiry (h : Armed s) (deadline : Option Int) : Armed (armExpiry s deadline) := by
  cases deadline with
  | none => exact h
  | some d =>
    refine ⟨fun t ht => ?_, fun t ht => ?_⟩
    · obtain ⟨hsignal, hmem⟩ := h.timer t ht
      exact ⟨hsignal, mem_cons_of_mem _ hmem⟩
    · cases ht
      exact ⟨rfl, mem_cons_self, d, rfl, Int.le_refl _⟩

theorem watched_armExpiry (h : ∀ e ∈ entries, ∀ d ∈ e.deadline, ∃ m ∈ deadline, m ≤ d) :
    Watched (armExpiry s deadline) entries := by
  intro e he d hd
  obtain ⟨m, hm, hle⟩ := h e he d hd
  obtain rfl := Option.mem_def.1 hm
  exact ⟨Option.some_ne_none _, m, rfl, hle⟩

theorem watched_expire (s : State R) : Watched (expire s) (expire s).buffer := by
  have hbuffer : (expire s).buffer = (dropExpired (cancelExpiry s)).buffer := by
    unfold expire rearmExpiry
    cases earliest (dropExpired (cancelExpiry s)).buffer <;> rfl
  rw [hbuffer]
  exact watched_armExpiry fun e he d hd => earliest_le he hd

theorem armed_advanceExpiry (h : Armed s) (deadline : Option Int) :
    Armed (advanceExpiry s deadline) := by
  unfold advanceExpiry
  split_ifs
  · exact armed_armExpiry h deadline
  · exact armed_armExpiry (armed_cancelExpiry h.timer fun t ht => (h.expireTimer t ht).1) deadline
  · exact h

/-- What was watched still is, and so is a record with the new deadline. -/
theorem watched_advanceExpiry (h : Armed s) (hw : Watched s entries) (e : Entry) :
    Watched (advanceExpiry s e.deadline) (e :: entries) := by
  unfold advanceExpiry
  split_ifs with hnone hearly
  · refine watched_armExpiry (forall_mem_cons.2 ⟨fun d hd => ⟨d, hd, Int.le_refl d⟩, ?_⟩)
    exact fun e' he' d hd => absurd hnone (hw e' he' d hd).1
  · obtain ⟨d, hd, hearly⟩ := (Option.any_eq_true _ _).1 hearly
    obtain ⟨a, ha, hlt⟩ := (Option.any_eq_true _ _).1 hearly
    refine watched_armExpiry (forall_mem_cons.2 ⟨fun d hd => ⟨d, hd, Int.le_refl d⟩, ?_⟩)
    intro e' he' d' hd'
    obtain ⟨-, a', ha', hle⟩ := hw e' he' d' hd'
    obtain rfl := Option.some.inj (ha.symm.trans ha')
    exact ⟨d, hd, (of_decide_eq_true hlt).le.trans hle⟩
  · refine forall_mem_cons.2 ⟨fun d hd => ⟨hnone, ?_⟩, hw⟩
    obtain ⟨t, ht⟩ := Option.ne_none_iff_exists'.1 hnone
    obtain ⟨-, -, a, ha, -⟩ := h.expireTimer t ht
    refine ⟨a, ha, ?_⟩
    by_contra hlt
    refine hearly ((Option.any_eq_true _ _).2 ⟨d, hd, (Option.any_eq_true _ _).2 ⟨a, ha, ?_⟩⟩)
    exact decide_eq_true (Int.not_le.1 hlt)

/-! ## The invariant -/

/-- Who is held and who was answered, and the bounds. -/
structure Held (cfg : Config) (s : State R) : Prop where
  accounts : Accounts s
  callers : (s.answered ++ s.items.map Entry.caller).Perm s.admitted
  nodup : s.admitted.Nodup
  fresh : ∀ c ∈ s.admitted, c < s.nextCaller
  room : s.items.length ≤ cfg.maxQueue
  bytes : total Entry.size s.items ≤ cfg.maxQueueBytes ∨ s.items.length = 1

/-- What holds in every state of the batcher. -/
structure Inv (cfg : Config) (s : State R) : Prop where
  held : Held cfg s
  armed : Armed s
  watched : Watched s s.buffer
  driven : Driven s

/-- The bounds hold for fewer records. -/
theorem bytes_subperm {xs ys : List Entry} {m : Nat} (hsub : xs.Subperm ys)
    (h : total Entry.size ys ≤ m ∨ ys.length = 1) : total Entry.size xs ≤ m ∨ xs.length = 1 := by
  obtain ⟨zs, hperm, hsublist⟩ := hsub
  have hle := total_sublist size hsublist
  have hlength := hsublist.length_le
  rw [total_perm size hperm] at hle
  rw [hperm.length_eq] at hlength
  rcases h with hroom | hone
  · exact .inl (by omega)
  · rcases Nat.eq_zero_or_pos xs.length with hzero | hpos
    · rw [length_eq_zero_iff.1 hzero]
      exact .inl (Nat.zero_le m)
    · exact .inr (by omega)

theorem Held.moves (h : Held cfg s) (hmoves : Moves s t) : Held cfg t where
  accounts := hmoves.accounts h.accounts
  callers := by
    rw [hmoves.admitted]
    exact (hmoves.callers h.accounts).trans h.callers
  nodup := hmoves.admitted ▸ h.nodup
  fresh := by
    rw [hmoves.admitted, hmoves.nextCaller]
    exact h.fresh
  room := (hmoves.items h.accounts).length_le.trans h.room
  bytes := bytes_subperm (hmoves.items h.accounts) h.bytes

/-- What the totals say about everything that is held. -/
theorem Accounts.items (h : Accounts s) :
    s.queued = s.items.length ∧ s.queuedBytes = total Entry.size s.items := by
  have hlength : (s.inflight.flatMap Batch.entries).length =
      total (fun b => b.entries.length) s.inflight := length_flatMap
  have htotal : ∀ bs : List Batch, (∀ b ∈ bs, b.bytes = total size b.entries) →
      total size (bs.flatMap Batch.entries) = total Batch.bytes bs := by
    intro bs
    induction bs with
    | nil => exact fun _ => rfl
    | cons b bs ih =>
      intro hb
      obtain ⟨hb, hbs⟩ := forall_mem_cons.1 hb
      rw [flatMap_cons, total_append, total_cons, ih hbs, hb]
  have hcount := h.count
  have hbytes := h.bytes
  have hic := h.inflightCount
  have hib := h.inflightBytes
  constructor
  · rw [State.queued, State.items, length_append]
    omega
  · rw [State.queuedBytes, State.items, total_append, htotal s.inflight h.batches]
    omega

/-- The state right after a record was put into the buffer. -/
def accept (s : State R) (size : Nat) (deadline : Option Int) : State R :=
  { s with
    buffer := ⟨s.nextCaller, size, deadline⟩ :: s.buffer
    count := s.count + 1
    bytes := s.bytes + size
    nextCaller := s.nextCaller + 1
    admitted := s.nextCaller :: s.admitted }

theorem Held.accept (h : Held cfg s) {size : Nat} (hroom : ¬ (cfg.maxQueue : Int) ≤ s.queued)
    (hbytes : ¬ (0 < s.queued ∧ (cfg.maxQueueBytes : Int) < s.queuedBytes + size)) :
    Held cfg (accept s size deadline) := by
  obtain ⟨hqueued, hqueuedBytes⟩ := h.accounts.items
  have hitems : (Batcher.accept s size deadline).items =
    ⟨s.nextCaller, size, deadline⟩ :: s.items := rfl
  refine ⟨{ h.accounts with count := ?_, bytes := ?_ }, ?_, ?_, ?_, ?_, ?_⟩
  · have := h.accounts.count
    simp only [Batcher.accept, length_cons]
    omega
  · have := h.accounts.bytes
    simp only [Batcher.accept, total_cons]
    omega
  · rw [hitems, map_cons]
    exact perm_middle.trans (h.callers.cons _)
  · exact nodup_cons.2 ⟨fun hmem => Nat.lt_irrefl _ (h.fresh _ hmem), h.nodup⟩
  · refine forall_mem_cons.2 ⟨Nat.lt_succ_self _, fun c hc => ?_⟩
    exact Nat.lt_succ_of_lt (h.fresh c hc)
  · rw [hitems, length_cons]
    omega
  · rw [hitems, total_cons, length_cons]
    rcases Nat.eq_zero_or_pos s.items.length with hzero | hpos
    · exact .inr (by omega)
    · exact .inl (by dsimp only; omega)

variable {rest : List Entry}

/-- The newest record, if it is still in the buffer, is the first one there. -/
theorem head_of_mem {buffer : List Entry} (hsub : buffer.Sublist (e :: rest))
    (hfresh : ∀ e' ∈ rest, e'.caller ≠ e.caller) (hmem : e ∈ buffer) :
    ∃ tail, buffer = e :: tail := by
  cases hsub with
  | cons _ hrest => exact absurd rfl (hfresh e (hrest.subset hmem))
  | cons_cons _ _ => exact ⟨_, rfl⟩

theorem armExpiry_same (s : State R) (deadline : Option Int) :
    (armExpiry s deadline).buffer = s.buffer ∧ (armExpiry s deadline).inflight = s.inflight ∧
      (armExpiry s deadline).timer = s.timer := by
  cases deadline <;> exact ⟨rfl, rfl, rfl⟩

theorem cancelExpiry_same (s : State R) :
    (cancelExpiry s).buffer = s.buffer ∧ (cancelExpiry s).inflight = s.inflight ∧
      (cancelExpiry s).timer = s.timer := by
  unfold cancelExpiry
  split <;> exact ⟨rfl, rfl, rfl⟩

theorem advanceExpiry_same (s : State R) (deadline : Option Int) :
    (advanceExpiry s deadline).buffer = s.buffer ∧
    (advanceExpiry s deadline).inflight = s.inflight ∧
      (advanceExpiry s deadline).timer = s.timer := by
  unfold advanceExpiry
  split_ifs
  · exact armExpiry_same s deadline
  · obtain ⟨hb, hi, ht⟩ := armExpiry_same (cancelExpiry s) deadline
    obtain ⟨hb', hi', ht'⟩ := cancelExpiry_same s
    exact ⟨hb.trans hb', hi.trans hi', ht.trans ht'⟩
  · exact ⟨rfl, rfl, rfl⟩

/-- The expiry timer is right for the buffer once a new record has been put into it, flushed or
    not. -/
theorem ensureExpiry_inv {m : State R} (hheld : Held cfg m) (harmed : Armed m)
    (hdriven : Driven m) (hwatched : Watched m rest) (hbuffer : m.buffer.Sublist (e :: rest))
    (hfresh : ∀ e' ∈ rest, e'.caller ≠ e.caller) :
    Inv cfg (ensureExpiry m e.caller e.deadline) := by
  have hheld' := hheld.moves (moves_ensureExpiry m e.caller e.deadline)
  unfold ensureExpiry at hheld' ⊢
  cases hhead : m.buffer with
  | nil =>
    simp only [hhead] at hheld' ⊢
    refine ⟨hheld', harmed, fun e' he' => ?_, hdriven⟩
    rw [hhead] at he'
    cases he'
  | cons =>
    simp only [hhead] at hheld' ⊢
    split_ifs at hheld' ⊢ with hcaller
    · obtain ⟨hb, hi, ht⟩ := advanceExpiry_same m e.deadline
      have hall := watched_advanceExpiry harmed hwatched e
      refine ⟨hheld', armed_advanceExpiry harmed _,
        fun x hx => hall x (hbuffer.subset (hb ▸ hx)), ?_⟩
      unfold Driven at hdriven ⊢
      rwa [hb, hi, ht]
    · -- The new record is not buffered any more: it would be the first.
      refine ⟨hheld', harmed, fun x hx => ?_, hdriven⟩
      rcases mem_cons.1 (hbuffer.subset hx) with rfl | hold
      · obtain ⟨_, hnew⟩ := head_of_mem hbuffer hfresh hx
        rw [hhead] at hnew
        exact absurd (congrArg caller (List.cons.inj hnew).1) hcaller
      · exact hwatched x hold

theorem Inv.enqueue (h : Inv cfg s) (size : Nat) (deadline : Option Int) :
    Inv cfg (enqueue cfg s size deadline) := by
  unfold Batcher.enqueue
  dsimp only
  split_ifs with hrefused
  · refine ⟨{ h.held with accounts := ?_, fresh :=
      fun c hc => Nat.lt_succ_of_lt (h.held.fresh c hc) }, ⟨h.armed.timer, h.armed.expireTimer⟩,
        h.watched, h.driven⟩
    have ha := h.held.accounts
    exact { ha with }
  · obtain ⟨hroom, hbytes⟩ := not_or.1 hrefused
    have haccept : Held cfg (accept s size deadline) := h.held.accept hroom hbytes
    have harmed : Armed (accept s size deadline) := ⟨h.armed.timer, h.armed.expireTimer⟩
    have hkeeps := keeps_maybeFlush cfg (accept s size deadline)
    have hwatched : Watched (accept s size deadline) s.buffer := h.watched
    refine ensureExpiry_inv (haccept.moves (moves_maybeFlush _))
      (hkeeps.armed harmed) (maybeFlush_driven haccept.accounts)
      (hkeeps.watched hwatched) hkeeps.buffer ?_
    intro e he hsame
    have hmem : e.caller ∈ s.admitted :=
      h.held.callers.mem_iff.1 (mem_append_right _ (mem_map_of_mem (mem_append_left _ he)))
    exact Nat.ne_of_lt (h.held.fresh _ hmem) hsame

theorem expire_driven (h : Driven s) : Driven (expire s) := by
  obtain ⟨hb, hi, ht⟩ :=
    armExpiry_same (dropExpired (cancelExpiry s)) (earliest (dropExpired (cancelExpiry s)).buffer)
  obtain ⟨hb', hi', ht'⟩ := cancelExpiry_same s
  have hdrop : (dropExpired (cancelExpiry s)).inflight = s.inflight ∧
      (dropExpired (cancelExpiry s)).timer = s.timer := by
    rw [← hi', ← ht']
    unfold dropExpired
    split_ifs <;> exact ⟨rfl, rfl⟩
  intro hbuffer
  have hinflight : (expire s).inflight = s.inflight := hi.trans hdrop.1
  have htimer : (expire s).timer = s.timer := ht.trans hdrop.2
  rw [hinflight, htimer]
  refine h fun hnil => hbuffer (hb.trans ?_)
  have hsub := (keeps_dropExpired (cancelExpiry s)).buffer
  rw [hb', hnil] at hsub
  exact sublist_nil.1 hsub

/-- A timer of the other kind is still to come after a message is taken. -/
theorem signals_eraseIdx {t e : Timer} (hget : s.mail[i]? = some t) (hmem : e ∈ s.signals)
    (hne : e.signal ≠ t.signal) : e ∈ State.signals { s with mail := s.mail.eraseIdx i } := by
  rcases mem_append.1 hmem with hrun | hwaits
  · exact mem_append_left _ hrun
  · rcases mem_cons.1 ((perm_eraseIdx hget).mem_iff.1 hwaits) with rfl | hother
    · exact absurd rfl hne
    · exact mem_append_right _ hother

/-- The message of a flush timer, of the one that is set or of an older one. -/
theorem Inv.flush (h : Inv cfg s) {t : Timer} (hget : s.mail[i]? = some t)
    (hsignal : t.signal = .flush) : Inv cfg (flush cfg { s with mail := s.mail.eraseIdx i }) := by
  have hmail : Moves s { s with mail := s.mail.eraseIdx i } := .timed
  have hheld := h.held.moves hmail
  have hnone : Armed { s with mail := s.mail.eraseIdx i, timer := none } := by
    refine ⟨nofun, fun e he => ?_⟩
    obtain ⟨hexpire, hmem, htime⟩ := h.armed.expireTimer e he
    exact ⟨hexpire, signals_eraseIdx hget hmem (by rw [hexpire, hsignal]; nofun), htime⟩
  have hkeeps : Keeps { s with mail := s.mail.eraseIdx i, timer := none }
      (Batcher.flush cfg { s with mail := s.mail.eraseIdx i }) := by
    unfold Batcher.flush
    dsimp only
    split_ifs
    · exact keeps_startCommit _
    · exact .refl _
  have hwatched : Watched { s with mail := s.mail.eraseIdx i, timer := none } s.buffer := h.watched
  exact ⟨hheld.moves (moves_flush _), hkeeps.armed hnone,
    fun e he => hkeeps.watched hwatched e (hkeeps.buffer.subset he), flush_driven hheld.accounts⟩

/-- The message of an expiry timer, of the one that is set or of an older one. -/
theorem Inv.expire (h : Inv cfg s) {t : Timer} (hget : s.mail[i]? = some t)
    (hsignal : t.signal = .expire) : Inv cfg (expire { s with mail := s.mail.eraseIdx i }) := by
  have hmail : Moves s { s with mail := s.mail.eraseIdx i } := .timed
  have hcancel : Armed (cancelExpiry { s with mail := s.mail.eraseIdx i }) := by
    refine armed_cancelExpiry (fun f hf => ?_) fun e he => (h.armed.expireTimer e he).1
    obtain ⟨hflush, hmem⟩ := h.armed.timer f hf
    exact ⟨hflush, signals_eraseIdx hget hmem (by rw [hflush, hsignal]; nofun)⟩
  refine ⟨h.held.moves (hmail.trans (moves_expire _)),
    armed_armExpiry ((keeps_dropExpired _).armed hcancel) _, watched_expire _, ?_⟩
  exact expire_driven h.driven

/-- A batch is answered, and the next one goes. -/
theorem Inv.afterBatch (h : Inv cfg s) (hget : s.inflight[i]? = some b)
    (hreplies : replies.map Prod.fst = b.entries.map Entry.caller) :
    Inv cfg (afterBatch cfg { settle s i b with answers := s.answers ++ replies }) := by
  have hsettled := h.held.moves (moves_settle hget hreplies)
  have hkeeps := keeps_afterBatch cfg { settle s i b with answers := s.answers ++ replies }
  have hwatched : Watched { settle s i b with answers := s.answers ++ replies } s.buffer :=
    h.watched
  exact ⟨hsettled.moves (moves_afterBatch _), hkeeps.armed ⟨h.armed.timer, h.armed.expireTimer⟩,
    fun e he => hkeeps.watched hwatched e (hkeeps.buffer.subset he),
    afterBatch_driven hsettled.accounts⟩

theorem zip_callers {results : List R} (h : results.length = entries.length) :
    ((entries.zip results).map fun p => (p.1.caller, Reply.committed p.2)).map Prod.fst =
      entries.map Entry.caller := by
  have hfst : ((entries.zip results).map Prod.fst).map caller = entries.map caller := by
    rw [map_fst_zip (by omega)]
  rw [← hfst, map_map, map_map]
  rfl

theorem replyAll_callers (entries : List Entry) (reply : Reply R) :
    (entries.map fun e => (e.caller, reply)).map Prod.fst = entries.map Entry.caller := by
  rw [map_map]
  rfl

theorem Inv.step (h : Inv cfg s) {e : Event R} (hstep : Batcher.step cfg s e = some t) :
    Inv cfg t := by
  cases e with
  | tick =>
    obtain ⟨hle, rfl⟩ := guarded hstep
    refine ⟨h.held.moves .timed, ⟨h.armed.timer, fun t ht => ?_⟩,
      h.watched, h.driven⟩
    obtain ⟨hsignal, hmem, a, ha, htime⟩ := h.armed.expireTimer t ht
    exact ⟨hsignal, hmem, a, ha, htime.trans (max_le_max_left a hle)⟩
  | enqueue size deadline =>
    cases hstep
    exact h.enqueue size deadline
  | fire i =>
    simp only [Batcher.step] at hstep
    split at hstep
    next f hget =>
      obtain ⟨hdue, rfl⟩ := guarded hstep
      -- The timer that fires is still a signal to come.
      have hsignals : ∀ x ∈ s.signals, x ∈ s.timers.eraseIdx i ++ f :: s.mail := by
        intro x hx
        refine perm_middle.mem_iff.2 ?_
        rw [← cons_append]
        exact (((perm_eraseIdx hget).append_right s.mail).mem_iff.1 hx)
      refine ⟨h.held.moves .timed, ⟨fun t ht => ?_, fun t ht => ?_⟩,
        h.watched, h.driven⟩
      · obtain ⟨hsignal, hmem⟩ := h.armed.timer t ht
        exact ⟨hsignal, hsignals t hmem⟩
      · obtain ⟨hsignal, hmem, htime⟩ := h.armed.expireTimer t ht
        exact ⟨hsignal, hsignals t hmem, htime⟩
    · cases hstep
  | message =>
    simp only [Batcher.step] at hstep
    split at hstep
    next hget =>
      split at hstep
      next hsignal =>
        cases hstep
        exact h.flush hget hsignal
      next hsignal =>
        cases hstep
        exact h.expire hget hsignal
    · cases hstep
  | reply i result =>
    simp only [Batcher.step] at hstep
    split at hstep
    next b hget =>
      obtain ⟨hresult, rfl⟩ := guarded hstep
      cases result with
      | some => exact h.afterBatch hget (zip_callers (of_decide_eq_true hresult))
      | none => exact h.afterBatch hget (replyAll_callers b.entries .storeUnavailable)
    · cases hstep
  | down =>
    obtain ⟨b, hget, rfl⟩ := Option.map_eq_some_iff.1 hstep
    exact h.afterBatch hget (replyAll_callers b.entries .storeUnavailable)
  | stray =>
    cases hstep
    exact h

theorem Inv.boot (cfg : Config) (now : Int) : Inv cfg (boot R now) where
  held := ⟨⟨rfl, rfl, rfl, rfl, forall_mem_nil _⟩, .refl _, nodup_nil,
    (forall_mem_nil _), Nat.zero_le _, .inl (Nat.zero_le _)⟩
  armed := ⟨nofun, nofun⟩
  watched := forall_mem_nil _
  driven := fun h => absurd rfl h

/-- Two records go as one commit when the flush timer has just fired. Behind it one is refused and
    another passes its deadline; the commit replies, and the next record waits for both of its
    timers. -/
def busy : List (Event Nat) :=
  [.enqueue 40 none, .tick 5, .fire 0, .enqueue 50 (some 100), .message 0, .enqueue 20 (some 20),
    .enqueue 10 (some 20), .tick 20, .fire 0, .message 0, .reply 0 (some [7, 8]), .stray,
    .enqueue 5 (some 90)]

end Ankusa.Batcher
