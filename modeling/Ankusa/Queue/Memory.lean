import Ankusa.Queue.Fence
import Ankusa.Queue.Written
import Ankusa.Lib.Window

set_option autoImplicit false

/-! # What the writer remembers

The dedupe check trusts four things beside the store: the writer's window of recent keys, the reads
its callers made before they called, the clocks, and the sweeper's list of expired keys.
`step_memory` says once what an event can do to them, and to the batch that is waiting to be
written. -/

namespace Ankusa.Node

open Writer List Option Run

/-- The recent keys as a window. -/
def WriterState.window (w : WriterState) : KV.Window Key Val Ms :=
  ⟨w.recent.cur, w.recent.old, w.recentGenAt, w.recentSince⟩

/-- The calls the writer has taken and not checked. -/
def Phase.calls : Phase → List Call
  | .collecting first => [first]
  | .stamped calls _ _ => calls
  | _ => []

/-- Every call on its way to the check. -/
def State.calls (s : State) : List Call :=
  s.preparing ++ s.prefetched ++ s.queue ++ s.writer.phase.calls

/-- The stamp of the group under way. -/
def Phase.clock : Phase → Option Ms
  | .stamped _ now _ | .redriving _ _ _ _ now => some now
  | .built cx | .applied cx _ => some cx.now
  | _ => none

/-- The dedupe operations of the batch that is waiting to be written. -/
def Phase.dedupeOps : Phase → List Op
  | .built cx | .applied cx _ => cx.checked.dedupeOps
  | _ => []

/-- What an event does to the window. -/
inductive WindowStep (s t : State) : Event → Prop
  | same {e : Event} (h : t.writer.window = s.writer.window) : WindowStep s t e
  | begun {e : Event} (h : t.writer.window = (beginGroup s).writer.window) : WindowStep s t e
  | cleared {e : Event} (h : t.writer.window = .clear s.mono) : WindowStep s t e
  | landed (h : t.writer.window = s.writer.window.record (dedupePuts s.writer.phase.dedupeOps)) :
      WindowStep s t (.write true)
  | swept (h : t.writer.window = s.writer.window.revise (expireOps s.store s.sweep).2) :
      WindowStep s t (.expireDedupe true)

/-- Where a call on its way to the check comes from. -/
inductive CallStep (s : State) (c : Call) : Event → Prop
  | same {e : Event} (h : c ∈ s.calls) : CallStep s c e
  | unread {e : Event} (htime : c.readAt = s.mono) (hread : c.prefetch = []) : CallStep s c e
  | read (id : Nat) (before : Call) (h : before ∈ s.calls) (htime : c.readAt = before.readAt)
      (hread : ∀ p ∈ c.prefetch, p.2 = s.store.get p.1) : CallStep s c (.prefetch id)

/-- What an event does to what the dedupe check relies on. -/
structure Memory (cfg : Config) (s t : State) (e : Event) : Prop where
  mono : s.mono ≤ t.mono
  wallMax : s.ghost.wallMax ≤ t.ghost.wallMax
  wall : s.wall ≤ s.ghost.wallMax → t.wall ≤ t.ghost.wallMax
  lastAt : t.writer.lastAt = s.writer.lastAt ∨ s.writer.phase.clock = some t.writer.lastAt
  clock : ∀ now, t.writer.phase.clock = some now → s.writer.phase.clock = some now ∨
    now = max s.wall s.writer.lastAt
  sweep : ∀ x ∈ t.sweep, x ∈ s.sweep ∨ x.time ≤ s.wall
  window : WindowStep s t e
  calls : ∀ c ∈ t.calls, CallStep s c e
  /-- A release reads the store itself. -/
  sealed : ∀ calls now extra, t.writer.phase = .stamped calls now extra → extra ≠ [] →
    s.writer.phase = .stamped calls now extra ∨ ∀ c ∈ calls, c.prefetch = []
  waiting : t.writer.phase.dedupeOps = s.writer.phase.dedupeOps ∨ t.writer.phase.dedupeOps = [] ∨
    e = .check true ∧ ∃ adm calls now extra, s.writer.phase = .stamped calls now extra ∧
      t.writer.phase.dedupeOps = (dedupe cfg s adm calls now extra).dedupeOps

/-- What `Memory` is about. -/
def State.memory (s : State) :
    (Ms × Ms × Ms) × (List Call × List Expired) × KV.Window Key Val Ms × Ms × Phase :=
  ((s.wall, s.mono, s.ghost.wallMax), (s.preparing ++ s.prefetched ++ s.queue, s.sweep),
    s.writer.window, s.writer.lastAt, s.writer.phase)

open State

attribute [local simp] setPhase State.answer Phase.calls

section

variable {cfg : Config} {s t : State} {e : Event}

/-- An event of another process leaves the calls and the phase of the writer. -/
theorem Memory.outside
    (hcalls : t.preparing ++ t.prefetched ++ t.queue = s.preparing ++ s.prefetched ++ s.queue)
    (hphase : t.writer.phase = s.writer.phase) (hlastAt : t.writer.lastAt = s.writer.lastAt)
    (hmono : s.mono ≤ t.mono) (hmax : s.ghost.wallMax ≤ t.ghost.wallMax)
    (hwall : s.wall ≤ s.ghost.wallMax → t.wall ≤ t.ghost.wallMax)
    (hsweep : ∀ x ∈ t.sweep, x ∈ s.sweep ∨ x.time ≤ s.wall) (hwindow : WindowStep s t e) :
    Memory cfg s t e where
  mono := hmono
  wallMax := hmax
  wall := hwall
  lastAt := .inl hlastAt
  clock := fun now hnow => .inl (hphase ▸ hnow)
  sweep := hsweep
  window := hwindow
  calls := fun c hc => .same (by rwa [State.calls, hcalls, hphase] at hc)
  sealed := fun calls now extra hnow _ => .inl (hphase ▸ hnow)
  waiting := .inl (by rw [hphase])

theorem Memory.same (h : t.memory = s.memory) : Memory cfg s t e := by
  simp only [State.memory, Prod.mk.injEq] at h
  obtain ⟨⟨hwall, hmono, hmax⟩, ⟨hcalls, hsweep⟩, hwindow, hlastAt, hphase⟩ := h
  refine .outside hcalls hphase hlastAt hmono.ge hmax.ge (fun hle => ?_)
    (fun x hx => .inl (hsweep ▸ hx)) (.same hwindow)
  rw [hwall, hmax]
  exact hle

/-- The clocks and the sweeper's list. -/
def State.around (s : State) : Ms × Ms × Ms × List Expired :=
  (s.wall, s.mono, s.ghost.wallMax, s.sweep)

/-- An event of the writer leaves the clocks and the sweeper's list. -/
theorem Memory.writer (haround : t.around = s.around)
    (hlastAt : t.writer.lastAt = s.writer.lastAt ∨ s.writer.phase.clock = some t.writer.lastAt)
    (hclock : ∀ now, t.writer.phase.clock = some now → s.writer.phase.clock = some now ∨
      now = max s.wall s.writer.lastAt) (hwindow : WindowStep s t e)
      (hcalls : ∀ c ∈ t.calls, CallStep s c e)
    (hsealed : ∀ calls now extra, t.writer.phase = .stamped calls now extra → extra ≠ [] →
      s.writer.phase = .stamped calls now extra ∨ ∀ c ∈ calls, c.prefetch = [])
    (hwaiting : t.writer.phase.dedupeOps = s.writer.phase.dedupeOps ∨
      t.writer.phase.dedupeOps = [] ∨
      e = .check true ∧ ∃ adm calls now extra, s.writer.phase = .stamped calls now extra ∧
        t.writer.phase.dedupeOps = (dedupe cfg s adm calls now extra).dedupeOps) :
          Memory cfg s t e := by
  simp only [State.around, Prod.mk.injEq] at haround
  obtain ⟨hwall, hmono, hmax, hsweep⟩ := haround
  exact
    { mono := hmono.ge
      wallMax := hmax.ge
      wall := fun hle => by rw [hwall, hmax]; exact hle
      lastAt := hlastAt
      clock := hclock
      sweep := fun x hx => .inl (hsweep ▸ hx)
      window := hwindow
      calls := hcalls
      sealed := hsealed
      waiting := hwaiting }

/-- The phase holds neither a call nor a batch of new hooks. -/
def Phase.rests : Phase → Bool
  | .idle | .tracking _ | .extraOnly _ _ _ => true
  | _ => false

/-- The writer is done with its calls. -/
theorem Memory.rest (haround : t.around = s.around)
    (hlastAt : t.writer.lastAt = s.writer.lastAt ∨ s.writer.phase.clock = some t.writer.lastAt)
    (hwindow : WindowStep s t e) 
    (hcalls : ∀ c ∈ t.preparing ++ t.prefetched ++ t.queue,
      c ∈ s.preparing ++ s.prefetched ++ s.queue)
    (hphase : t.writer.phase.rests = true) : Memory cfg s t e := by
  have hrests : t.writer.phase.calls = [] ∧ t.writer.phase.clock = none ∧
      t.writer.phase.dedupeOps = [] ∧ ∀ calls now extra,
      t.writer.phase ≠ .stamped calls now extra := by
    cases hp : t.writer.phase <;> rw [hp] at hphase <;>
      first | exact ⟨rfl, rfl, rfl, nofun⟩ | cases hphase
  obtain ⟨hnone, hclock, hops, hne⟩ := hrests
  refine .writer haround hlastAt (fun now hnow => ?_) hwindow (fun c hc => .same ?_)
    (fun calls now extra heq => absurd heq (hne _ _ _)) (.inr (.inl hops))
  · rw [hclock] at hnow
    cases hnow
  · rw [State.calls, hnone, append_nil] at hc
    exact mem_append_left _ (hcalls c hc)

/-! ## The writer's events -/

theorem mem_drainCalls {count bytes : Nat} {queue : List Call} {c : Call}
    (h : c ∈ drainCalls cfg count bytes queue) : c ∈ queue := by
  fun_induction drainCalls cfg count bytes queue with
  | case1 | case2 => cases h
  | case3 count bytes c' cs hfits ih =>
    rcases mem_cons.1 h with rfl | h
    · exact mem_cons_self
    · exact mem_cons_of_mem _ (ih h)

theorem beginGroup_around (s : State) : (beginGroup s).around = s.around ∧
    (beginGroup s).preparing = s.preparing ∧ (beginGroup s).prefetched = s.prefetched ∧
    (beginGroup s).queue = s.queue ∧ (beginGroup s).mono = s.mono ∧
    (beginGroup s).wall = s.wall := by
  unfold beginGroup rotateRecent syncRecent
  split_ifs <;> exact ⟨rfl, rfl, rfl, rfl, rfl, rfl⟩

theorem beginGroup_queue (s : State) (queue : List Call) :
    (beginGroup { s with queue }).writer = (beginGroup s).writer := by
  unfold beginGroup rotateRecent syncRecent
  split_ifs <;> rfl

theorem begin_memory (h : begin_ s = some t) : Memory cfg s t .begin_ := by
  unfold begin_ at h
  split at h
  next c queue hphase hqueue =>
    have hsub : ∀ c ∈ s.preparing ++ s.prefetched ++ queue,
        c ∈ s.preparing ++ s.prefetched ++ s.queue := by
      intro c hc
      rcases mem_append.1 hc with hc | hc
      · exact mem_append_left _ hc
      · exact mem_append_right _ (hqueue ▸ mem_cons_of_mem _ hc)
    dsimp only at h
    split_ifs at h with hf
    · cases h
      exact .rest rfl (.inl rfl) (.same rfl) hsub (by simp [hphase, Phase.rests])
    cases h
    obtain ⟨haround, hpreparing, hprefetched, hqueue', -⟩ := beginGroup_around { s with queue }
    refine .writer haround (.inl ?_) (by intros; contradiction) (.begun ?_) (fun c' hc' => .same ?_)
      (by intros; contradiction) (.inr (.inl rfl))
    · simp
    · show (beginGroup _).writer.window = _
      rw [beginGroup_queue]
    · have hmem : c' ∈ (s.preparing ++ s.prefetched ++ queue) ++ [c] := by
        simpa only [State.calls, Phase.calls, setPhase, hpreparing, hprefetched, hqueue'] using hc'
      rcases mem_append.1 hmem with hmem | hmem
      · exact mem_append_left _ (hsub c' hmem)
      · rw [mem_singleton] at hmem
        refine mem_append_left _ (mem_append_right _ ?_)
        rw [hmem, hqueue]
        exact mem_cons_self
  · cases h

theorem drain_memory {gone : List (Nat × Reason)} (h : drain cfg s gone = some t) :
    Memory cfg s t (.drain gone) := by
  unfold drain at h
  split at h
  next first hphase =>
    dsimp only at h
    have htaken : ∀ c ∈ first :: drainCalls cfg first.items.length first.bytes s.queue,
        c ∈ s.calls := by
      exact forall_mem_cons.2 ⟨mem_append_right _ (by simp [hphase]),
        fun c hc => mem_append_left _ (mem_append_right _ (mem_drainCalls hc))⟩
    generalize first :: drainCalls cfg first.items.length first.bytes s.queue = taken at h htaken
    obtain ⟨rs, -, heq⟩ :=
      refuseGone_eq gone { s with queue := s.queue.drop (taken.length - 1) } taken
    have hsub : ∀ c ∈ s.preparing ++ s.prefetched ++ s.queue.drop (taken.length - 1),
        c ∈ s.preparing ++ s.prefetched ++ s.queue := by
      intro c hc
      rcases mem_append.1 hc with hc | hc
      · exact mem_append_left _ hc
      · exact mem_append_right _ (mem_of_mem_drop hc)
    rw [heq] at h
    split_ifs at h with hlive
    · cases h
      exact .rest rfl (.inl rfl) (.same rfl) hsub rfl
    cases h
    refine .writer rfl (.inl rfl) (fun now hnow => .inr ?_) (.same rfl) (fun c hc => .same ?_)
      (fun calls now extra heq hne => ?_) (.inr (.inl rfl))
    · exact (some.inj hnow).symm
    · rcases mem_append.1 hc with hc | hc
      · exact mem_append_left _ (hsub c hc)
      · exact htaken c (mem_of_mem_filter hc)
    · cases heq
      exact absurd rfl hne
  · cases h

variable {extra : List Op} {reads ok : Bool}

theorem release_memory {id : Nat} {items : List Item}
    (h : release s id items extra = some t) : Memory cfg s t (.release id items extra) := by
  unfold release at h
  split_ifs at h with hguard hf
  · cases h
    exact .same rfl
  cases h
  obtain ⟨haround, hpreparing, hprefetched, hqueue, hmono, hwall⟩ := beginGroup_around s
  refine .writer haround (.inl ?_) (fun now hnow => .inr ?_) (.begun rfl) (fun c hc => ?_)
    (fun calls now extra heq hne => .inr ?_) (.inr (.inl rfl))
  · simp
  · rw [← some.inj hnow, hwall, (beginGroup_writer s).2.1]
  · have hmem : c ∈ (s.preparing ++ s.prefetched ++ s.queue) ++ [⟨id, items, [], s.mono⟩] := by
      simpa only [State.calls, Phase.calls, setPhase, hpreparing, hprefetched, hqueue,
        hmono] using hc
    rcases mem_append.1 hmem with hmem | hmem
    · exact .same (mem_append_left _ hmem)
    · obtain rfl := mem_singleton.1 hmem
      exact .unread rfl rfl
  · cases heq
    exact forall_mem_singleton.2 rfl

@[simp] theorem syncEpoch_window (w : WriterState) (epoch : Nat) :
    (syncEpoch w epoch).window = w.window := by
  unfold syncEpoch
  split_ifs <;> rfl

theorem dedupe_syncEpoch (cfg : Config) (s : State) (epoch : Nat) :
    dedupe cfg { s with writer := syncEpoch s.writer epoch } = dedupe cfg s := by
  unfold syncEpoch
  split_ifs <;> rfl

theorem checkGroup_memory (cfg : Config) (s : State) (calls : List Call) (now : Ms)
    (extra : List Op) : ∃ p : Phase,
      (checkGroup cfg s calls now extra).memory = (s.setPhase p).memory ∧ (p.rests = true ∨
        ∃ adm, p = .built (batch cfg s adm (dedupe cfg s adm calls now extra) calls now
          extra)) := by
  unfold checkGroup
  dsimp only
  split_ifs with hrefused hfresh hpipelined
  · exact ⟨.idle, rfl, .inl rfl⟩
  · unfold settleReply
    split_ifs <;> exact ⟨.idle, rfl, .inl rfl⟩
  · exact ⟨_, rfl, .inl rfl⟩
  · exact ⟨_, rfl, .inr ⟨_, rfl⟩⟩

theorem check_memory (h : check cfg s reads = some t) : Memory cfg s t (.check reads) := by
  unfold check at h
  split at h
  next calls now extra hphase =>
    split_ifs at h with hreads
    · cases h
      exact .rest rfl (.inl (syncEpoch_fields _ _).2.1) (.same (syncEpoch_window _ _))
        (fun _ hc => hc) rfl
    cases h
    obtain ⟨p, hmemory, hp⟩ :=
      checkGroup_memory cfg { s with writer := syncEpoch s.writer s.epoch } calls now extra
    simp only [State.memory, Prod.mk.injEq] at hmemory
    obtain ⟨⟨hwall, hmono, hmax⟩, ⟨hcalls, hsweep⟩, hwindow, hlastAt, hphase'⟩ := hmemory
    have haround : (checkGroup cfg { s with writer := syncEpoch s.writer s.epoch } calls now
        extra).around = s.around := by
      rw [State.around, hwall, hmono, hmax, hsweep]
      rfl
    have hlastAt' := hlastAt.trans (syncEpoch_fields s.writer s.epoch).2.1
    have hwindow' := hwindow.trans (syncEpoch_window s.writer s.epoch)
    rcases hp with hrests | ⟨adm, rfl⟩
    · refine .rest haround (.inl hlastAt') (.same hwindow') (fun c hc => ?_) ?_
      · rwa [hcalls] at hc
      · rw [hphase']
        exact hrests
    · refine .writer haround (.inl hlastAt') (fun now' hnow => .inl ?_) (.same hwindow')
        (fun c hc => .same ?_) (fun _ _ _ heq => ?_)
          (.inr (.inr ⟨?_, adm, calls, now, extra, hphase, ?_⟩))
      · rw [hphase'] at hnow
        rw [hphase]
        exact hnow
      · rw [State.calls, hcalls, hphase'] at hc
        exact mem_append_left _ (by simpa using hc)
      · rw [hphase'] at heq
        cases heq
      · simpa using hreads
      · rw [hphase']
        show (dedupe cfg { s with
          writer := syncEpoch s.writer s.epoch } adm calls now extra).dedupeOps = _
        rw [dedupe_syncEpoch]
  · cases h

@[simp] theorem cachePut_window (w : WriterState) (cache : List (String × Nat)) :
    (cachePut w cache).window = w.window := by
  unfold cachePut
  split_ifs <;> rfl

theorem land_window (s : State) (cx : Cx) (sync : Bool) : (s.land cx sync).writer.window =
    s.writer.window.record (dedupePuts cx.checked.dedupeOps) := by
  unfold State.land cachePut
  split_ifs <;> rfl

/-- The window remembers the keys of a batch that is written. -/
theorem write_window (h : write s ok = some t) : t.writer.window =
    if ok then s.writer.window.record (dedupePuts s.writer.phase.dedupeOps)
    else s.writer.window := by
  unfold write at h
  split at h
  next cx prev hphase =>
    rw [hphase]
    cases ok <;> cases h
    · rfl
    · exact land_window s cx false
  next cx hphase =>
    rw [if_neg fun hextra => by rw [if_pos hextra] at h; cases h] at h
    rw [hphase]
    cases ok <;> cases h
    · rfl
    · exact land_window s cx true
  next hphase =>
    rw [hphase]
    cases ok <;> obtain rfl := some.inj h <;> rfl
  next hphase =>
    rw [hphase]
    cases ok <;> cases h
    · rfl
    · exact cachePut_window _ _
  · cases h

theorem write_memory (h : write s ok = some t) : Memory cfg s t (.write ok) := by
  have hwindow : WindowStep s t (.write ok) := by
    have heq := write_window h
    cases ok with
    | true => exact .landed heq
    | false => exact .same heq
  unfold write at h
  split at h
  next hphase =>
    split_ifs at h
    · cases h
      refine .rest rfl (.inr ?_) hwindow (fun _ hc => hc) rfl
      simp [hphase, Phase.clock, State.submit, State.land, WriterState.consume]
    · cases h
      exact .rest rfl (.inr (by rw [hphase]; rfl)) hwindow (fun _ hc => hc) rfl
  next hphase =>
    split_ifs at h
    · cases h
      refine .rest rfl (.inr ?_) hwindow (fun _ hc => hc) rfl
      simp [hphase, Phase.clock, State.land, WriterState.consume]
    · cases h
      exact .rest rfl (.inr (by rw [hphase]; rfl)) hwindow (fun _ hc => hc) rfl
  next hphase =>
    split_ifs at h <;> obtain rfl :=
      some.inj h <;> exact .rest rfl (.inl rfl) hwindow (fun _ hc => hc) rfl
  next hphase =>
    split_ifs at h
    · cases h
      refine .rest rfl (.inr ?_) hwindow (fun _ hc => hc) rfl
      simp [hphase, Phase.clock, WriterState.consume]
    · cases h
      exact .rest rfl (.inr (by rw [hphase]; rfl)) hwindow (fun _ hc => hc) rfl
  · cases h

theorem redrive_memory {call : Nat} {entries : List RedriveEntry}
    (h : redrive cfg s call entries extra reads = some t) :
    Memory cfg s t (.redrive call entries extra reads) := by
  unfold redrive at h
  dsimp only at h
  split_ifs at h with hguard hf hreads hrefused
  · cases h
    exact .same rfl
  · cases h
    exact .same (by simp [State.memory])
  · cases h
    exact .same (by simp [State.memory])
  · cases h
    refine .writer rfl (.inl (syncEpoch_fields _ _).2.1) (fun now hnow => .inr ?_)
      (.same (syncEpoch_window _ _)) (fun c hc => .same ?_) (by intros; contradiction)
      (.inr (.inl rfl))
    · exact (some.inj hnow).symm
    · exact mem_append_left _ (by simpa [State.calls] using hc)

theorem mem_expiredKeys {store : Store} {now : Ms} {chunk : Nat} {x : Expired}
    (h : x ∈ expiredKeys store now chunk) : x.time ≤ now := by
  have hmem := (perm_insertionSort _ _).mem_iff.1 (mem_of_mem_take h)
  obtain ⟨entry, -, heq⟩ := mem_filterMap.1 hmem
  split at heq
  · obtain ⟨hle, rfl⟩ := guarded heq
    exact hle
  · cases heq

theorem dispatch_memory (he : e.dispatches = true) (h : step cfg s e = some t) :
    t.memory = s.memory := by
  obtain ⟨d, -, rfl⟩ | ⟨d, claimed, sync, rfl⟩ := dispatch_cases he h <;> rfl

/-- What an event does to what the dedupe check relies on. -/
theorem step_memory (h : step cfg s e = some t) : Memory cfg s t e := by
  cases e with
  | tick =>
    obtain ⟨hmono, rfl⟩ := guarded h
    exact .outside rfl rfl rfl hmono (le_max_left _ _) (fun _ => le_max_right _ _)
      (fun x hx => .inl hx) (.same rfl)
  | prepare =>
    cases h
    refine .writer rfl (.inl rfl) (fun now hnow => .inl hnow) (.same rfl) (fun c hc => ?_)
      (fun calls now extra hphase _ => .inl hphase) (.inl rfl)
    rcases mem_cons.1 hc with rfl | hc
    · exact .unread rfl rfl
    · exact .same hc
  | prefetch id =>
    obtain ⟨before, hfind, rfl⟩ := map_eq_some_iff.1 h
    refine .writer rfl (.inl rfl) (fun now hnow => .inl hnow) (.same rfl) (fun c hc => ?_)
      (fun calls now extra hphase _ => .inl hphase) (.inl rfl)
    simp only [State.calls, mem_append, mem_cons] at hc
    rcases hc with ((hc | hc | hc) | hc) | hc
    · refine .same ?_
      simp only [State.calls, mem_append]
      exact .inl (.inl (.inl (mem_of_mem_filter hc)))
    · refine .read id before ?_ (by rw [hc]) fun p hp => ?_
      · simp only [State.calls, mem_append]
        exact .inl (.inl (.inl (mem_of_find?_eq_some hfind)))
      · rw [hc] at hp
        obtain ⟨k, -, rfl⟩ := mem_map.1 hp
        rfl
    all_goals
      refine .same ?_
      simp only [State.calls, mem_append]
      tauto
  | enqueue =>
    obtain ⟨before, hfind, rfl⟩ := map_eq_some_iff.1 h
    refine .writer rfl (.inl rfl) (fun now hnow => .inl hnow) (.same rfl) (fun c hc => .same ?_)
      (fun calls now extra hphase _ => .inl hphase) (.inl rfl)
    simp only [State.calls, mem_append, mem_singleton] at hc ⊢
    rcases hc with ((hc | hc) | hc | hc) | hc
    · exact .inl (.inl (.inl hc))
    · exact .inl (.inl (.inr (mem_of_mem_filter hc)))
    · exact .inl (.inr hc)
    · exact .inl (.inl (.inr (hc ▸ mem_of_find?_eq_some hfind)))
    · exact .inr hc
  | begin_ => exact begin_memory h
  | drain => exact drain_memory h
  | release => exact release_memory h
  | check => exact check_memory h
  | setApplied =>
    simp only [step, setApplied] at h
    split at h
    next hphase =>
      obtain ⟨-, rfl⟩ := guarded h
      refine .writer rfl (.inl rfl) (fun now hnow => .inl ?_) (.same rfl) (fun c hc => .same ?_)
        (by intros; contradiction) (.inl ?_)
      · rw [hphase]
        exact hnow
      · exact mem_append_left _ (by simpa [State.calls] using hc)
      · rw [hphase]
        rfl
    · cases h
  | write => exact write_memory h
  | track =>
    simp only [step, track] at h
    split at h
    · cases h
      exact .rest rfl (.inl rfl) (.same rfl) (fun _ hc => hc) rfl
    · cases h
  | redrive => exact redrive_memory h
  | syncFailed ok =>
    obtain ⟨hguard, rfl⟩ := guarded h
    cases ok <;> exact .rest rfl (.inl rfl) (.cleared rfl) (fun _ hc => hc)
      (by simp [fence, hguard.1, Phase.rests])
  | retryFence ok =>
    obtain ⟨hguard, rfl⟩ := guarded h
    cases ok <;> exact .same rfl
  | sweepScan =>
    cases h
    exact .outside rfl rfl rfl le_rfl le_rfl (fun hle => hle)
      (fun x hx => .inr (mem_expiredKeys hx)) (.same rfl)
  | expireDedupe ok =>
    simp only [step, expireDedupe] at h
    split_ifs at h with hidle hrefused
    · cases h
      exact .outside rfl rfl rfl le_rfl le_rfl (fun hle => hle)
        (forall_mem_nil _) (.same rfl)
    · cases h
      obtain rfl : ok = true := by simpa using (not_or.1 hrefused).2
      exact .outside rfl rfl rfl le_rfl le_rfl (fun hle => hle)
        (forall_mem_nil _) (.swept rfl)
  | gate =>
    cases h
    exact .same rfl
  | syncerTake | syncerSync | syncerAnswer =>
    obtain ⟨marks, syncer, told, synced, replies, failed, rfl, -⟩ := syncer_cases rfl h
    exact .same rfl
  | _ => exact .same (dispatch_memory rfl h)

/-! ## Clocks -/

theorem beginGroup_window (s : State) :
    (beginGroup s).writer.window = s.writer.window ∨ (beginGroup s).writer.window = .clear s.mono ∨
      (beginGroup s).writer.window = s.writer.window.rotate s.mono ∨
      (beginGroup s).writer.window = (KV.Window.clear s.mono).rotate s.mono := by
  unfold beginGroup rotateRecent syncRecent
  split_ifs <;> simp [WriterState.window, KV.Window.clear, KV.Window.rotate]

theorem beginGroup_timed (h : s.writer.window.Timed s.mono) :
    (beginGroup s).writer.window.Timed s.mono := by
  rcases beginGroup_window s with heq | heq | heq | heq <;> rw [heq]
  · exact h
  · exact KV.Window.timed_clear
  · exact h.rotate
  · exact KV.Window.timed_clear.rotate

theorem beginGroup_knows {k : Key} {v : Val} {wrote : Ms} (h : s.writer.window.Knows k v wrote)
    (htimed : s.writer.window.Timed s.mono) (hwrote : wrote ≤ s.mono) :
    (beginGroup s).writer.window.Knows k v wrote := by
  rcases beginGroup_window s with heq | heq | heq | heq <;> rw [heq]
  · exact h
  · exact KV.Window.knows_clear hwrote
  · exact h.rotate htimed hwrote
  · exact (KV.Window.knows_clear hwrote).rotate KV.Window.timed_clear hwrote

/-- Nothing the node has seen of the clocks is later than they are. -/
structure Clocks (s : State) : Prop where
  wall : s.wall ≤ s.ghost.wallMax
  lastAt : s.writer.lastAt ≤ s.ghost.wallMax
  clock : ∀ now, s.writer.phase.clock = some now → now ≤ s.ghost.wallMax
  sweep : ∀ x ∈ s.sweep, x.time ≤ s.ghost.wallMax
  window : s.writer.window.Timed s.mono
  calls : ∀ c ∈ s.calls, c.readAt ≤ s.mono
  commits : ∀ c ∈ s.ghost.commits, c.wrote ≤ s.mono

/-- The dedupe entries a batch records. -/
theorem landed_eq (s : State) :
    landed s (.write true) = commitsOf s.writer.phase.dedupeOps s.ghost.wal s.mono := by
  unfold landed
  cases s.writer.phase <;> rfl

theorem mem_landed {c : Commit} (h : c ∈ landed s e) :
    e = .write true ∧ c ∈ commitsOf s.writer.phase.dedupeOps s.ghost.wal s.mono := by
  unfold landed at h
  split at h
  · refine ⟨rfl, ?_⟩
    rw [← landed_eq]
    exact h
  · cases h

theorem Clocks.step (hc : Clocks s) (h : Node.step cfg s e = some t) : Clocks t := by
  have hmem := step_memory h
  refine ⟨hmem.wall hc.wall, ?_, fun now hnow => ?_, fun x hx => ?_, ?_, fun c hmem' => ?_,
    fun c hmem' => ?_⟩
  · refine le_trans ?_ hmem.wallMax
    rcases hmem.lastAt with heq | heq
    · rw [heq]
      exact hc.lastAt
    · exact hc.clock _ heq
  · refine le_trans ?_ hmem.wallMax
    rcases hmem.clock now hnow with hold | rfl
    · exact hc.clock now hold
    · exact max_le hc.wall hc.lastAt
  · refine le_trans ?_ hmem.wallMax
    rcases hmem.sweep x hx with hold | hle
    · exact hc.sweep x hold
    · exact hle.trans hc.wall
  · refine KV.Window.Timed.mono ?_ hmem.mono
    cases hmem.window with
    | same heq => exact heq ▸ hc.window
    | begun heq => exact heq ▸ beginGroup_timed hc.window
    | cleared heq => exact heq ▸ KV.Window.timed_clear
    | landed heq | swept heq => exact heq ▸ ⟨hc.window.since_le, hc.window.genAt_le⟩
  · refine le_trans ?_ hmem.mono
    cases hmem.calls c hmem' with
    | same hold => exact hc.calls c hold
    | unread htime => exact htime.le
    | read id before hold htime => exact htime.le.trans (hc.calls before hold)
  · refine le_trans ?_ hmem.mono
    rw [(step_effect h).commits] at hmem'
    rcases mem_append.1 hmem' with hnew | hold
    · exact (mem_commitsOf (mem_landed hnew).2).2.2.le
    · exact hc.commits c hold

theorem Clocks.boot (store : Store) (closed : List String) (wall mono : Ms) :
    Clocks (boot store closed wall mono) where
  wall := le_max_right _ _
  lastAt := le_max_left _ _
  clock := nofun
  sweep := forall_mem_nil _
  window := ⟨le_rfl, le_rfl⟩
  calls := forall_mem_nil _
  commits := forall_mem_nil _

end

end Ankusa.Node
