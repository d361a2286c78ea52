import Ankusa.Lib.Run
import Ankusa.Lib.Slots
import Ankusa.Store.Keys
import Mathlib.Data.Rat.Floor

set_option autoImplicit false

/-! # The breaker of the fleet store

`gate`, `probe_if_due`, `record` and `probed` of `edge/fleet.ex`: the breaker is six atomics, and
each get, put, addition and compare-exchange of a caller is a step of its own between which any
other caller may run.

The right to probe is taken by swapping the state, and the opening time follows in a put of its own.
Until it lands, a caller that has read the new state finds the breaker due and swaps "probing" for
"probing" (`twoProbes_together`). `Prompt` asks of a swap that is won that it is made at the time of
its clock read, that the opening time is still the one the caller compared, and that nobody's write
of the state or the opening time is outstanding; then the probes keep their distance
(`probes_apart`). -/

namespace Ankusa.FleetBreaker

open List Option Run

/-- The settings of the breaker. -/
structure Config where
  breakerOpenMs : Nat
  breakerWindowMs : Nat
  breakerMinCalls : Nat
  breakerFailureRate : ℚ

/-- The slots of its atomics. -/
inductive Slot where
  | state | openedAt | windowAt | calls | fails | lastFailed
  deriving DecidableEq, Repr

/-- The atomics: the state is 0 while closed, 1 while open and 2 while a caller probes. -/
abbrev Regs := Slot → Int

/-- What a caller does next. -/
inductive Phase where
  | gate
  /-- Not closed: the clock, the opening time and the swap of `probe_if_due`. -/
  | seen (from_ : Int)
  | clocked (from_ : Int) (now : Ms)
  | due (from_ : Int) (now : Ms) (openedAt : Int)
  | put (slot : Slot) (v : Int) (next : Phase)
  /-- The store call of a probe, and what `probed` does with its outcome. -/
  | probing
  | reopening
  | closing
  /-- The store call under a closed breaker, and `record`. -/
  | calling
  | answered (error : Bool)
  | recording (now : Ms) (error : Bool)
  | windowed (now : Ms) (windowAt : Int) (error : Bool)
  | counting (now : Ms) (error : Bool)
  | failing (now : Ms) (calls : Int)
  | tripping (now : Ms)
  | done
  deriving DecidableEq, Repr

variable (cfg : Config)

/-- One step of a caller on the atomics. -/
def advance (time : Ms) (r : Regs) : Phase → Option (Regs × Phase)
  | .gate => some (r, if r .state = 0 then .calling else .seen (r .state))
  | .seen from_ => some (r, .clocked from_ time)
  | .clocked from_ now => some (r, .due from_ now (r .openedAt))
  | .due from_ now openedAt =>
    -- A caller that is not due does not try the swap.
    if cfg.breakerOpenMs ≤ now - openedAt ∧ r .state = from_ then
      some (Function.update r .state 2, .put .openedAt now .probing)
    else some (r, .done)
  | .put slot v next => some (Function.update r slot v, next)
  | .reopening => some (r, .put .openedAt time (.put .state 1 .done))
  | .closing => some (r, .put .windowAt time (.put .lastFailed 0 (.put .state 0 .done)))
  | .answered error => some (r, .recording time error)
  | .recording now error => some (r, .windowed now (r .windowAt) error)
  | .windowed now windowAt error =>
    if cfg.breakerWindowMs ≤ now - windowAt ∧ r .windowAt = windowAt then
      some (Function.update r .windowAt now, .put .calls 0 (.put .fails 0 (.counting now error)))
    else some (r, .counting now error)
  | .counting now error =>
    let calls := r .calls + 1
    some (Function.update r .calls calls,
      if error then .put .lastFailed 1 (.failing now calls) else .put .lastFailed 0 .done)
  | .failing now calls =>
    let fails := r .fails + 1
    some (Function.update r .fails fails,
      if cfg.breakerMinCalls ≤ calls ∧ cfg.breakerFailureRate * calls ≤ fails then .tripping now
      else .done)
  | .tripping now =>
    if r .state = 0 then some (Function.update r .state 1, .put .openedAt now .done)
      else some (r, .done)
  | .probing | .calling | .done => none

/-- A caller: the state it found, whether it became the probe, and what it does next. -/
structure Call where
  found : Option Int
  probe : Bool
  phase : Phase

/-- The clock, the atomics and the callers, with the times of the probes and of their outcomes,
    newest first. -/
structure State where
  time : Ms
  regs : Regs
  calls : List Call
  probes : List Ms
  outcomes : List Ms

/-- Time passes, a call begins, takes a step, or has its answer. -/
inductive Event where
  | tick (time : Ms)
  | call
  | go (i : Nat)
  /-- The store answers, or fails. -/
  | answer (i : Nat) (error : Bool)

/-- Whether the caller takes the right to probe with its next step. -/
def wins (r : Regs) : Phase → Bool
  | .due from_ now openedAt => cfg.breakerOpenMs ≤ now - openedAt ∧ r .state = from_
  | _ => false

/-- One atomics operation of one call. -/
def step (s : State) : Event → Option State
  | .tick time => if s.time ≤ time then some { s with time } else none
  | .call => some { s with calls := s.calls ++ [⟨none, false, .gate⟩] }
  | .go i =>
    (s.calls[i]?).bind fun c => (advance cfg s.time s.regs c.phase).map fun (r, p) =>
      { s with
        regs := r
        calls := s.calls.set i
          ⟨if c.phase = .gate then some (s.regs .state) else c.found,
            c.probe || wins cfg s.regs c.phase, p⟩
        probes := if wins cfg s.regs c.phase then s.time :: s.probes else s.probes }
  | .answer i error =>
    (s.calls[i]?).bind fun c =>
      match c.phase with
      | .calling => some { s with calls := s.calls.set i { c with phase := .answered error } }
      | .probing =>
        some { s with
          calls := s.calls.set i
            { c with phase := if error then .reopening else .put .calls 0 (.put .fails 0 .closing) }
          outcomes := s.time :: s.outcomes }
      | _ => none

/-- A new breaker, closed. -/
def State.fresh (now : Ms) : State := ⟨now, Function.update (fun _ => 0) .windowAt now, [], [], []⟩

/-- The caller is about to write the state or the opening time. -/
def Phase.settles : Phase → Bool
  | .put slot _ next => slot = .state || slot = .openedAt || next.settles
  | .reopening | .closing => true
  | _ => false

/-- The caller has made no store call. -/
def Phase.aside : Phase → Bool
  | .gate | .seen _ | .clocked _ _ | .due _ _ _ | .done => true
  | _ => false

/-- The swap is made at the time of the clock read and on the opening time that was read, and nobody
    is about to write. -/
def Phase.current (s : State) : Phase → Bool
  | .due _ now openedAt =>
    now = s.time ∧ s.regs .openedAt = openedAt ∧ ∀ c ∈ s.calls, c.phase.settles = false
  | _ => true

/-- A swap that is won is current. -/
def Prompt (s : State) : Event → Bool
  | .go i => (s.calls[i]?).all fun c => !wins cfg s.regs c.phase || c.phase.current s
  | _ => true

variable {cfg} {r r' : Regs} {p p' : Phase} {time t : Ms}

theorem wins_due (time : Ms) (h : wins cfg r p = true) :
    ∃ now openedAt, p = .due (r .state) now openedAt ∧ cfg.breakerOpenMs ≤ now - openedAt ∧
      advance cfg time r p = some (Function.update r .state 2, .put .openedAt now .probing) := by
  cases p <;> simp_all [wins, advance]

/-- What a step that wins no swap does to the state and the opening time of a breaker that is not
    closed. -/
theorem advance_cases (hlost : wins cfg r p = false) (hopen : r .state ≠ 0)
    (h : advance cfg time r p = some (r', p')) : p.settles = true ∨
    p.settles = false ∧ p'.settles = false ∧ r' .state = r .state ∧ r' .openedAt = r .openedAt := by
  refine or_iff_not_imp_left.2 fun hset => ⟨Bool.eq_false_iff.2 hset, ?_⟩
  cases p with
  | put =>
    cases h
    simp only [Phase.settles, Bool.or_eq_true, not_or, decide_eq_true_eq] at hset
    exact ⟨Bool.eq_false_iff.2 hset.2, Function.update_of_ne (Ne.symm hset.1.1) _ _,
      Function.update_of_ne (Ne.symm hset.1.2) _ _⟩
  | due =>
    simp only [advance, if_neg (of_decide_eq_false hlost)] at h
    cases h
    exact ⟨rfl, rfl, rfl⟩
  | tripping =>
    simp only [advance, if_neg hopen] at h
    cases h
    exact ⟨rfl, rfl, rfl⟩
  | windowed =>
    simp only [advance] at h
    split at h <;> cases h <;> exact ⟨rfl, rfl, rfl⟩
  | gate | counting | failing =>
    cases h
    refine ⟨?_, rfl, rfl⟩
    split <;> rfl
  | reopening | closing => exact absurd rfl hset
  | probing | calling | done => cases h
  | seen | clocked | answered | recording =>
    cases h
    exact ⟨rfl, rfl, rfl⟩

/-- A probe without an outcome: the breaker is not closed, and nobody but the probe writes the
    opening time. -/
structure Held (s : State) (t : Ms) : Prop where
  notClosed : s.regs .state ≠ 0
  writes : ∀ c ∈ s.calls, c.phase.settles = true → c.phase = .put .openedAt t .probing
  opened : s.regs .openedAt = t ∨ ∃ c ∈ s.calls, c.phase = .put .openedAt t .probing

/-- The probes are apart, or separated by an outcome. -/
structure Spaced (cfg : Config) (s : State) : Prop where
  past : ∀ t ∈ s.probes ++ s.outcomes, t ≤ s.time
  apart : s.probes.Pairwise fun (t t' : Ms) => t' + cfg.breakerOpenMs ≤ t ∨ ∃ o ∈ s.outcomes,
    t' ≤ o ∧ o ≤ t
  held : ∀ t ∈ s.probes.head?, (∀ o ∈ s.outcomes, o < t) → Held s t
  aside : ∀ c ∈ s.calls, c.found ≠ some 0 → c.probe = false → c.phase.aside = true

variable {s s' : State} {c c' : Call} {i : Nat}

/-- A caller goes on that writes neither the state nor the opening time. -/
theorem Held.set (h : Held s t) (hi : s.calls[i]? = some c) (hc : c.phase.settles = false)
    (hc' : c'.phase.settles = false) (hstate : s'.regs .state = s.regs .state)
    (hopened : s'.regs .openedAt = s.regs .openedAt) (hcalls : s'.calls = s.calls.set i c') :
    Held s' t := by
  refine ⟨hstate ▸ h.notClosed, fun x hx hset => ?_, ?_⟩
  · rw [hcalls] at hx
    rcases mem_or_eq_of_mem_set hx with hx | rfl
    · exact h.writes x hx hset
    · rw [hc'] at hset
      cases hset
  · rw [hopened, hcalls]
    refine h.opened.imp_right fun ⟨x, hx, hp⟩ => ⟨x, (Slots.perm_set hi c').mem_iff.2 ?_, hp⟩
    rcases mem_cons.1 ((Slots.perm_eraseIdx hi).mem_iff.1 hx) with rfl | hx
    · rw [hp] at hc
      cases hc
    · exact mem_cons_of_mem _ hx

theorem Held.go (h : Held s t) (hi : s.calls[i]? = some c) (hlost : wins cfg s.regs c.phase = false)
    (hadv : advance cfg s.time s.regs c.phase = some (r, c'.phase)) (hregs : s'.regs = r)
    (hcalls : s'.calls = s.calls.set i c') : Held s' t := by
  subst hregs
  rcases advance_cases hlost h.notClosed hadv with hset | ⟨hc, hc', hstate, hopened⟩
  · -- The probe writes the opening time.
    rw [h.writes c (mem_of_getElem? hi) hset] at hadv
    obtain ⟨hregs, hphase⟩ := Prod.mk.inj (some.inj hadv)
    refine ⟨?_, fun x hx hset => ?_, .inl ?_⟩
    · rw [← hregs, Function.update_of_ne (by decide)]
      exact h.notClosed
    · rw [hcalls] at hx
      rcases mem_or_eq_of_mem_set hx with hx | rfl
      · exact h.writes x hx hset
      · rw [← hphase] at hset
        cases hset
    · rw [← hregs, Function.update_self]
  · exact h.set hi hc hc' hstate hopened hcalls

theorem aside_go (hc : c.found ≠ some 0 → c.probe = false → c.phase.aside = true)
    (hadv : advance cfg time r c.phase = some (r', p))
    (hfound : (if c.phase = .gate then some (r .state) else c.found) ≠ some 0)
    (hprobe : (c.probe || wins cfg r c.phase) = false) : p.aside = true := by
  obtain ⟨hprobe, hlost⟩ := Bool.or_eq_false_iff.1 hprobe
  by_cases hgate : c.phase = .gate
  · rw [if_pos hgate] at hfound
    rw [hgate] at hadv
    obtain ⟨-, rfl⟩ := Prod.mk.inj (some.inj hadv)
    rw [if_neg fun h => hfound (congrArg some h)]
    rfl
  · rw [if_neg hgate] at hfound
    have hc := hc hfound hprobe
    generalize c.phase = q at hadv hlost hgate hc
    cases q with
    | gate => exact absurd rfl hgate
    | due =>
      simp only [advance, if_neg (of_decide_eq_false hlost)] at hadv
      cases hadv
      rfl
    | seen | clocked =>
      cases hadv
      rfl
    | done => cases hadv
    | _ => cases hc

/-- A swap that is won comes late enough after every probe that has no outcome. -/
theorem Spaced.win (h : Spaced cfg s) {now openedAt : Ms}
    (hwait : cfg.breakerOpenMs ≤ now - openedAt) (hnow : now = s.time)
    (hread : s.regs .openedAt = openedAt) (hidle : ∀ c ∈ s.calls, c.phase.settles = false) :
    ∀ t ∈ s.probes, t + cfg.breakerOpenMs ≤ s.time ∨ ∃ o ∈ s.outcomes, t ≤ o ∧ o ≤ s.time := by
  have hhead : ∀ t ∈ s.probes.head?, t + cfg.breakerOpenMs ≤ s.time ∨ ∃ o ∈ s.outcomes,
      t ≤ o ∧ o ≤ s.time := by
    intro t ht
    by_cases hout : ∀ o ∈ s.outcomes, o < t
    · rcases (h.held t ht hout).opened with hopened | ⟨c, hc, hp⟩
      · refine .inl ?_
        rw [hread] at hopened
        rw [hnow, hopened] at hwait
        exact le_sub_iff_add_le'.1 hwait
      · have := hidle c hc
        rw [hp] at this
        cases this
    · push Not at hout
      obtain ⟨o, ho, hle⟩ := hout
      exact .inr ⟨o, ho, hle, h.past o (mem_append_right _ ho)⟩
  cases hprobes : s.probes with
  | nil => exact forall_mem_nil _
  | cons t₁ =>
    have hlast : t₁ ≤ s.time := h.past t₁ (by simp [hprobes])
    have hapart := h.apart
    rw [hprobes] at hhead hapart
    refine forall_mem_cons.2 ⟨hhead t₁ rfl, fun t ht => ?_⟩
    rcases rel_of_pairwise_cons hapart ht with hle | ⟨o, ho, hfrom, hto⟩
    · exact .inl (hle.trans hlast)
    · exact .inr ⟨o, ho, hfrom, hto.trans hlast⟩

theorem Spaced.step (h : Spaced cfg s) (e : Event) (hprompt : Prompt cfg s e = true)
    (hstep : FleetBreaker.step cfg s e = some s') : Spaced cfg s' := by
  cases e with
  | tick =>
    obtain ⟨hle, rfl⟩ := guarded hstep
    exact { h with
      past := fun t ht => (h.past t ht).trans hle
      held := fun t ht hout => ⟨(h.held t ht hout).1, (h.held t ht hout).2, (h.held t ht hout).3⟩ }
  | call =>
    cases hstep
    refine { h with
      held := fun t ht hout => ?_
      aside := forall_mem_append.2 ⟨h.aside, forall_mem_singleton.2 fun _ _ => rfl⟩ }
    have hheld := h.held t ht hout
    exact ⟨hheld.1, forall_mem_append.2 ⟨hheld.writes, forall_mem_singleton.2 nofun⟩,
      hheld.3.imp_right fun ⟨c, hc, hp⟩ => ⟨c, mem_append_left _ hc, hp⟩⟩
  | go =>
    obtain ⟨c, hi, hstep⟩ := bind_eq_some_iff.1 hstep
    obtain ⟨⟨r, p⟩, hadv, rfl⟩ := map_eq_some_iff.1 hstep
    have hcurrent : ∀ now openedAt, wins cfg s.regs c.phase = true →
      c.phase = .due (s.regs .state) now openedAt →
        now = s.time ∧ s.regs .openedAt = openedAt ∧ ∀ c ∈ s.calls, c.phase.settles = false := by
      intro now openedAt hwins hp
      simp only [Prompt, hi, all_some, hwins, Bool.not_true, Bool.false_or] at hprompt
      rw [hp] at hprompt
      exact of_decide_eq_true hprompt
    refine ⟨?_, ?_, ?_, fun x hx hfound hprobe => ?_⟩
    rotate_left 3
    · rcases mem_or_eq_of_mem_set hx with hx | rfl
      · exact h.aside x hx hfound hprobe
      · exact aside_go (h.aside c (mem_of_getElem? hi)) hadv hfound hprobe
    all_goals by_cases hwins : wins cfg s.regs c.phase = true
    all_goals simp only [hwins, if_true, if_false, Bool.false_eq_true]
    · exact forall_mem_cons.2 ⟨le_rfl, h.past⟩
    · exact h.past
    · obtain ⟨now, openedAt, hp, hwait, -⟩ := wins_due s.time hwins
      obtain ⟨hnow, hread, hidle⟩ := hcurrent now openedAt hwins hp
      exact pairwise_cons.2 ⟨h.win hwait hnow hread hidle, h.apart⟩
    · exact h.apart
    · intro t ht hout
      obtain rfl := some.inj ht
      obtain ⟨now, openedAt, hp, hwait, hadv'⟩ := wins_due s.time hwins
      obtain ⟨hnow, hread, hidle⟩ := hcurrent now openedAt hwins hp
      obtain ⟨rfl, rfl⟩ := Prod.mk.inj (some.inj (hadv.symm.trans hadv'))
      refine ⟨by simp, fun x hx hset => ?_, .inr ⟨_, mem_set (List.getElem?_eq_some_iff.1 hi).1 _,
        by rw [hnow]⟩⟩
      rcases mem_or_eq_of_mem_set hx with hx | rfl
      · rw [hidle x hx] at hset
        cases hset
      · rw [hnow]
    · exact fun t ht hout => (h.held t ht hout).go hi (Bool.eq_false_iff.2 hwins) hadv rfl rfl
  | answer i =>
    obtain ⟨c, hi, hstep⟩ := bind_eq_some_iff.1 hstep
    have haside : ∀ p', c.phase.aside = false → ∀ x ∈ s.calls.set i { c with phase := p' },
        x.found ≠ some 0 → x.probe = false → x.phase.aside = true := by
      intro p' hc x hx hfound hprobe
      rcases mem_or_eq_of_mem_set hx with hx | rfl
      · exact h.aside x hx hfound hprobe
      · have := h.aside c (mem_of_getElem? hi) hfound hprobe
        rw [hc] at this
        cases this
    split at hstep
    next hp =>
      cases hstep
      exact { h with
        held := fun t ht hout => (h.held t ht hout).set hi (by rw [hp]; rfl) rfl rfl rfl rfl
        aside := haside _ (by rw [hp]; rfl) }
    next hp =>
      cases hstep
      refine ⟨fun t ht => ?_, h.apart.imp fun hr => hr.imp_right fun ⟨o, ho, hle⟩ =>
        ⟨o, mem_cons_of_mem _ ho, hle⟩, fun t ht hout => ?_, haside _ (by rw [hp]; rfl)⟩
      · rcases mem_append.1 ht with ht | ht
        · exact h.past t (mem_append_left _ ht)
        · rcases mem_cons.1 ht with rfl | ht
          · exact le_rfl
          · exact h.past t (mem_append_right _ ht)
      · exact absurd (h.past t (mem_append_left _ (mem_of_mem_head? ht)))
          (not_le.2 (hout _ mem_cons_self))
    · cases hstep

theorem spaced_fresh (now : Ms) : Spaced cfg (.fresh now) :=
  ⟨forall_mem_nil _, Pairwise.nil, nofun, forall_mem_nil _⟩

/-- In a run whose swaps are all prompt at most one caller becomes the probe in a period without a
    probe outcome, and whoever else finds the breaker not closed makes no store call. -/
theorem probes_apart {now : Ms} {es : List Event}
    (hrun : Run.exec (step cfg) (.fresh now) es = some s)
    (hprompt : Run.Along (step cfg) (fun s e => Prompt cfg s e = true) (.fresh now) es) :
    (∀ a, (∀ o ∈ s.outcomes, ¬ (a ≤ o ∧ o < a + cfg.breakerOpenMs)) →
      (s.probes.filter fun t => a ≤ t ∧ t < a + cfg.breakerOpenMs).length ≤ 1) ∧
    ∀ c ∈ s.calls, c.found ≠ some 0 → c.probe = false → c.phase.aside = true := by
  have h : Spaced cfg s :=
    invariant_along (fun _ e _ h hp hstep => h.step e hp hstep) (spaced_fresh now) hprompt hrun
  refine ⟨fun a hout => ?_, h.aside⟩
  have hpair := h.apart.filter fun t => decide (a ≤ t ∧ t < a + cfg.breakerOpenMs)
  have hmem : ∀ t ∈ s.probes.filter fun t => decide (a ≤ t ∧ t < a + cfg.breakerOpenMs),
      a ≤ t ∧ t < a + cfg.breakerOpenMs := fun t ht => of_decide_eq_true (mem_filter.1 ht).2
  revert hpair hmem
  cases s.probes.filter fun t => decide (a ≤ t ∧ t < a + cfg.breakerOpenMs) with
  | nil => exact fun _ _ => Nat.zero_le _
  | cons t rest =>
    cases rest with
    | nil => exact fun _ _ => Nat.le_refl _
    | cons =>
      intro hpair hmem
      obtain ⟨ht, ht', -⟩ := forall_mem_cons.1 hmem |>.imp_right fun h => forall_mem_cons.1 h
      rcases rel_of_pairwise_cons hpair mem_cons_self with hle | ⟨o, ho, hfrom, hto⟩
      · exact absurd (ht.2.trans_le (add_le_add_left ht'.1 _)) (not_lt.2 hle)
      · exact absurd ⟨ht'.1.trans hfrom, hto.trans_lt ht.2⟩ (hout o ho)

/-! ## A second probe -/

/-- One failed call opens the breaker. -/
def eager : Config := ⟨10, 1000, 1, 0⟩

/-- A failed call opens the breaker; when it is due a caller takes the probe. -/
def opened : List Event :=
  [.call, .go 0, .answer 0 true] ++ replicate 8 (.go 0) ++ [.tick 10, .call] ++ replicate 4 (.go 1)

/-- A probe that never reports is followed by another when the breaker is due again. -/
theorem probes_apart_reopened : ∃ s, Run.exec (step eager) (.fresh 0)
      (opened ++ [.go 1, .tick 20, .call] ++ replicate 4 (.go 2)) = some s ∧
    (∀ a, (∀ o ∈ s.outcomes, ¬ (a ≤ o ∧ o < a + eager.breakerOpenMs)) →
      (s.probes.filter fun t => a ≤ t ∧ t < a + eager.breakerOpenMs).length ≤ 1) ∧
        s.probes = [20, 10] := by
  obtain ⟨s, hs, hprobes⟩ : ∃ s, exec (step eager) (.fresh 0)
      (opened ++ [.go 1, .tick 20, .call] ++ replicate 4 (.go 2)) = some s ∧ s.probes = [20, 10] :=
    of_exec (by decide +kernel)
  exact ⟨s, hs, (probes_apart hs (by decide +kernel)).1, hprobes⟩

/-- A caller that reads the state between the swap and the put of the opening time probes too. -/
theorem twoProbes_together : ∃ s, Run.exec (step eager) (.fresh 0)
      (opened ++ [.call] ++ replicate 4 (.go 2)) = some s ∧ s.outcomes = [] ∧ s.probes = [10, 10] :=
  of_exec (by decide +kernel)

end Ankusa.FleetBreaker
