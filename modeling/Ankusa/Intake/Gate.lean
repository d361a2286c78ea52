import Ankusa.Lib.Run
import Ankusa.Store.Keys

set_option autoImplicit false

/-! # The intake breaker of `wal: :dual`

`intake/gate.ex` and the three places that use it: the writer asks it before it starts a batch and
tells it what became of the batch's publish, the reconciler opens it when the adapter says it is not
ready. The state is in the pending set's table, so it outlives the writer; the batches in flight do
not. The reconciler runs beside the writer, and its check and its write are two steps. -/

namespace Ankusa.Gate

open Run

/-- The states of the breaker. -/
inductive Breaker where
  | closed | open_ | halfOpen
  deriving DecidableEq, Repr

/-- The settings the breaker reads. -/
structure Settings where
  probeMs : Ms
  breakerFailures : Nat

/-- The breaker's rows of the table. -/
structure Rows where
  state : Breaker
  openedAt : Option Ms
  failures : Nat

/-- The breaker opens. -/
def Rows.trip (g : Rows) (now : Ms) : Rows := { g with state := .open_, openedAt := some now }

/-- The breaker after a batch is let through; `none` refuses it. -/
def admits (cfg : Settings) (g : Rows) (now : Ms) : Option Rows :=
  match g.state with
  | .closed => some g
  | .halfOpen => none
  | .open_ =>
    if cfg.probeMs ≤ now - g.openedAt.getD now then some { g with state := .halfOpen } else none

/-- A publish attempt ended. -/
def record (cfg : Settings) (g : Rows) (now : Ms) : Bool → Rows
  | true => { g with state := .closed, failures := 0 }
  | false =>
    let g := { g with failures := g.failures + 1 }
    if g.state = .halfOpen ∨ cfg.breakerFailures ≤ g.failures then g.trip now else g

/-- The batch let through turned out to have nothing to publish. -/
def abortProbe (g : Rows) (now : Ms) : Rows :=
  if g.state = .halfOpen then g.trip (now - 1000000000) else g

/-! ## The writer and the reconciler around it -/

/-- A batch whose publish has not been answered; `probe` when it was let through half open. -/
structure Flight where
  batch : Nat
  probe : Bool

/-- The breaker and the batches in flight. -/
structure State where
  gate : Rows
  inflight : List Flight
  /-- The reconciler has seen the breaker closed and is about to open it. -/
  notReady : Bool

/-- A closed breaker and no batch. -/
def State.start : State := ⟨⟨.closed, none, 0⟩, [], false⟩

/-- What the writer goes on to do with a batch the breaker let through. -/
inductive Then where
  | publish | nothing | die
  deriving DecidableEq, Repr

/-- The steps of the writer, its publish tasks and the reconciler. -/
inductive Event where
  | admits (batch : Nat) (now : Ms) (then_ : Then)
  | result (i : Nat) (ok : Bool) (now : Ms)
  | crash
  | checkReady
  | open_ (now : Ms)

/-- One step. -/
def step (cfg : Settings) (s : State) : Event → Option State
  | .admits batch now then_ =>
    match admits cfg s.gate now with
    | none => some s
    | some g =>
      match then_ with
      | .publish => some { s with
          gate := g, inflight := ⟨batch, g.state = .halfOpen⟩ :: s.inflight }
      | .nothing => some { s with gate := abortProbe g now }
      -- The writer dies before it has started the batch.
      | .die => some { s with gate := g, inflight := [] }
  | .result i ok now =>
    (s.inflight[i]?).map fun _ =>
      { s with gate := record cfg s.gate now ok, inflight := s.inflight.eraseIdx i }
  | .crash => some { s with inflight := [] }
  | .checkReady => some { s with notReady := s.gate.state = .closed }
  | .open_ now =>
    if s.notReady then some { s with gate := s.gate.trip now, notReady := false } else none

/-- While the breaker is half open only the probe's own result arrives, the writer does not die, and
    the reconciler does not act on a check it made before. -/
def Undisturbed (s : State) : Event → Prop
  | .admits _ _ then_ => then_ = .die → s.gate.state ≠ .open_
  | .result i _ _ => s.gate.state = .halfOpen → (s.inflight[i]?).all Flight.probe
  | .crash | .open_ _ => s.gate.state ≠ .halfOpen
  | .checkReady => True

instance (s : State) (e : Event) : Decidable (Undisturbed s e) := by
  unfold Undisturbed
  split <;> infer_instance

/-! ## One probe at a time -/

/-- The probes in flight. -/
def State.probes (s : State) : List Flight := s.inflight.filter Flight.probe

/-- Half open means one probe in flight, any other state none. -/
def Probing (s : State) : Prop :=
  s.probes.length = if s.gate.state = .halfOpen then 1 else 0

variable {cfg : Settings} {s t : State} {g : Rows} {now : Ms}

theorem admits_closed (h : g.state = .closed) : admits cfg g now = some g := by
  simp [admits, h]

/-- A breaker that is not closed lets a batch through only by turning from open to half open. -/
theorem admits_not_closed {g' : Rows} (h : g.state ≠ .closed) (hg : admits cfg g now = some g') :
    g.state = .open_ ∧ g' = { g with state := .halfOpen } := by
  unfold admits at hg
  cases hs : g.state with
  | closed => exact absurd hs h
  | halfOpen => simp [hs] at hg
  | open_ =>
    simp only [hs] at hg
    split at hg
    · exact ⟨rfl, (Option.some.inj hg).symm⟩
    · cases hg

theorem record_not_halfOpen (g : Rows) (now : Ms) (ok : Bool) :
    (record cfg g now ok).state ≠ .halfOpen := by
  cases ok with
  | true => simp [record]
  | false =>
    simp only [record]
    split
    · simp [Rows.trip]
    · next h => exact fun hh => h (.inl hh)

theorem abortProbe_not_halfOpen (g : Rows) (now : Ms) : (abortProbe g now).state ≠ .halfOpen := by
  unfold abortProbe
  split
  · simp [Rows.trip]
  · next h => exact h

theorem Probing.start : Probing .start := by
  simp [Probing, State.probes, State.start]

theorem Probing.none (h : Probing s) (hs : s.gate.state ≠ .halfOpen) : s.probes = [] := by
  unfold Probing at h
  rw [if_neg hs] at h
  exact List.length_eq_zero_iff.1 h

theorem Probing.admits (h : Probing s) (batch : Nat)
    (hg : Gate.admits cfg s.gate now = some g) (hs : s.gate.state ≠ .closed) :
    g.state = .halfOpen ∧
      State.probes ⟨g, ⟨batch, g.state = .halfOpen⟩ :: s.inflight, s.notReady⟩ =
      [⟨batch, true⟩] := by
  obtain ⟨hopen, rfl⟩ := admits_not_closed hs hg
  have hnone := h.none (by rw [hopen]; decide)
  refine ⟨rfl, ?_⟩
  have hrest : s.inflight.filter Flight.probe = [] := hnone
  simp [State.probes, hrest]

theorem Probing.admitsClosed (h : Probing s) (batch : Nat)
    (hg : Gate.admits cfg s.gate now = some g) (hs : s.gate.state = .closed) :
    g = s.gate ∧
      State.probes ⟨g, ⟨batch, g.state = .halfOpen⟩ :: s.inflight, s.notReady⟩ = [] := by
  rw [admits_closed hs] at hg
  cases hg
  have hnone : s.inflight.filter Flight.probe = [] := h.none (by rw [hs]; decide)
  exact ⟨rfl, by simp [State.probes, hs, hnone]⟩

variable {i : Nat} {f : Flight}

theorem length_filter_eraseIdx {l : List Flight} (hi : l[i]? = some f) :
    (l.filter Flight.probe).length =
      ((l.eraseIdx i).filter Flight.probe).length + if f.probe then 1 else 0 := by
  induction l generalizing i with
  | nil => simp at hi
  | cons f' l ih =>
    cases i with
    | zero =>
      obtain rfl : f' = f := by simpa using hi
      cases hp : f'.probe <;> simp [hp]
    | succ =>
      have hrest := ih (by simpa using hi)
      cases hp : f'.probe <;> simp [hp, hrest]
      omega

theorem Probing.result (h : Probing s) (hi : s.inflight[i]? = some f)
    (hcalm : s.gate.state = .halfOpen → f.probe = true) (ok : Bool) (now : Ms) :
    Probing { s with gate := record cfg s.gate now ok, inflight := s.inflight.eraseIdx i } := by
  have hlen := length_filter_eraseIdx hi
  unfold Probing State.probes at h ⊢
  rw [if_neg (record_not_halfOpen _ _ _)]
  dsimp only
  by_cases hs : s.gate.state = .halfOpen
  · rw [if_pos hs] at h
    rw [hcalm hs] at hlen
    simp only [if_true] at hlen
    omega
  · rw [if_neg hs] at h
    omega

theorem Probing.step (h : Probing s) {e : Event} (hcalm : Undisturbed s e)
    (hstep : Gate.step cfg s e = some t) : Probing t := by
  cases e with
  | admits batch now then_ =>
    simp only [Gate.step] at hstep
    cases hg : Gate.admits cfg s.gate now with
    | none =>
      rw [hg] at hstep
      cases hstep
      exact h
    | some g =>
      rw [hg] at hstep
      by_cases hs : s.gate.state = .closed
      · obtain ⟨hsame, hnone⟩ := h.admitsClosed batch hg hs
        have hstate : g.state ≠ .halfOpen := by rw [hsame, hs]; decide
        cases then_ with
        | publish =>
          cases hstep
          rw [Probing, hnone, if_neg hstate]
          rfl
        | nothing =>
          cases hstep
          rw [Probing, if_neg (abortProbe_not_halfOpen _ _)]
          exact List.length_eq_zero_iff.2 (h.none (by rw [hs]; decide))
        | die =>
          cases hstep
          rw [Probing, if_neg hstate]
          rfl
      · obtain ⟨hhalf, hone⟩ := h.admits batch hg hs
        have hopen := (admits_not_closed hs hg).1
        cases then_ with
        | publish =>
          cases hstep
          rw [Probing, hone, if_pos hhalf]
          rfl
        | nothing =>
          cases hstep
          rw [Probing, if_neg (abortProbe_not_halfOpen _ _)]
          exact List.length_eq_zero_iff.2 (h.none (by rw [hopen]; decide))
        | die => exact absurd hopen (hcalm rfl)
  | result i ok now =>
    obtain ⟨f, hi, rfl⟩ := Option.map_eq_some_iff.1 hstep
    exact h.result hi (fun hs => by simpa [hi] using hcalm hs) ok now
  | crash =>
    cases hstep
    rw [Probing, if_neg hcalm]
    rfl
  | checkReady =>
    cases hstep
    exact h
  | open_ =>
    obtain ⟨-, rfl⟩ := guarded hstep
    rw [Probing, if_neg (by simp [Rows.trip])]
    exact List.length_eq_zero_iff.2 (h.none hcalm)

/-- In every run in which a half-open breaker is left to its probe, a half-open breaker has exactly
    one probe in flight, and a batch that goes out while the breaker is not closed is that probe. -/
theorem one_probe_of_undisturbed {es : List Event} (hrun : Run.exec (step cfg) .start es = some s)
    (hcalm : Run.Along (step cfg) Undisturbed .start es) :
    (s.gate.state = .halfOpen → s.probes.length = 1) ∧
      ∀ batch now t, step cfg s (.admits batch now .publish) = some t → t.inflight ≠ s.inflight →
        s.gate.state ≠ .closed → t.gate.state = .halfOpen ∧ t.probes = [⟨batch, true⟩] := by
  have h : Probing s := invariant_along (fun _ _ _ h hP hs => h.step hP hs)
    Probing.start hcalm hrun
  refine ⟨fun hs => ?_, fun batch now t hstep hne hs => ?_⟩
  · simpa [Probing, hs] using h
  simp only [step] at hstep
  cases hg : admits cfg s.gate now with
  | none =>
    rw [hg] at hstep
    exact absurd (congrArg State.inflight (Option.some.inj hstep)).symm hne
  | some =>
    rw [hg] at hstep
    cases hstep
    exact h.admits batch hg hs

/-- One failure opens the breaker. -/
def settings : Settings := ⟨1000, 1⟩

/-- The breaker opens on a failure, lets a probe through after `probe_ms`, and closes on its
    confirm. -/
def probed : List Event :=
  [.admits 1 0 .publish, .result 0 false 10, .admits 2 500 .publish, .admits 2 1200 .publish]

theorem probed_one_probe : ∃ s, Run.exec (step settings) .start probed = some s ∧
    s.gate.state = .halfOpen ∧ s.probes.length = 1 := by
  obtain ⟨s, hs, hhalf⟩ := of_exec (f := step settings) (s := .start) (l := probed)
    (P := fun s => s.gate.state = .halfOpen) (by decide)
  exact ⟨s, hs, hhalf, (one_probe_of_undisturbed hs (by decide)).1 hhalf⟩

/-- The writer dies with the probe in flight: the breaker stays half open with nothing in flight,
    and refuses every batch from then on. -/
theorem probe_lost : ∃ s, Run.exec (step settings) .start (probed ++ [.crash]) = some s ∧
    (s.gate.state = .halfOpen ∧ s.inflight = []) ∧ ∀ now, admits settings s.gate now = none := by
  obtain ⟨s, hs, hhalf, hnone⟩ := of_exec (f := step settings) (s := .start)
    (l := probed ++ [.crash]) (P := fun s => s.gate.state = .halfOpen ∧ s.inflight = []) (by decide)
  exact ⟨s, hs, ⟨hhalf, hnone⟩, fun now => by simp [admits, hhalf]⟩

-- The late failure of a batch let through before the breaker opened reopens it under its probe: the
-- next probe goes out while the first is still in flight.
example : (Run.exec (step settings) .start
    [.admits 0 0 .publish, .admits 1 0 .publish, .result 0 false 10, .admits 2 1200 .publish,
     .result 1 false 1300, .admits 3 2400 .publish]).any
      (fun s => s.gate.state = .halfOpen ∧ s.probes.length = 2) = true := by decide

end Ankusa.Gate
