import Mathlib.Data.List.Basic

set_option autoImplicit false

/-! # Runs of a partial step function

A system is a step function `step : σ → ε → Option σ`: the event `ε` carries every choice of the
environment (which message is taken, whether a call fails, what a clock shows) and `none` refuses an
event that is not enabled. `exec` feeds a list of events to it. The two induction rules below are
the only ones the safety proofs use: an invariant kept by every step holds after every run, and one
kept by the steps that meet a side condition holds after every run whose steps all meet it. -/

namespace Run

open Option

variable {σ ε : Type*}

/-- Feed a list of events to a step function; `none` as soon as one of them is refused. -/
def exec (step : σ → ε → Option σ) : σ → List ε → Option σ
  | s, [] => some s
  | s, e :: es => (step s e).bind fun t => exec step t es

@[simp] theorem exec_nil (step : σ → ε → Option σ) (s : σ) : exec step s [] = some s := rfl

variable {step : σ → ε → Option σ} {s t : σ} {es fs : List ε} {α : Type*} {p : Prop} {b : α}
  {P : σ → ε → Prop} {I : σ → Prop}

theorem exec_cons_eq_some {e : ε} :
    exec step s (e :: es) = some t ↔ ∃ u, step s e = some u ∧ exec step u es = some t := by
  simp [exec, bind_eq_some_iff]

theorem exec_append_eq_some :
    exec step s (es ++ fs) = some t ↔ ∃ u, exec step s es = some u ∧ exec step u fs = some t := by
  induction es generalizing s with
  | nil => simp
  | cons e es ih =>
    simp only [List.cons_append, exec_cons_eq_some, ih]
    constructor
    · rintro ⟨v, hv, u, hu, ht⟩
      exact ⟨u, ⟨v, hv, hu⟩, ht⟩
    · rintro ⟨u, ⟨v, hv, hu⟩, ht⟩
      exact ⟨v, hv, u, hu, ht⟩

/-- A step that was taken has passed its guard. -/
theorem passed [Decidable p] {o : Option α} (h : (if p then o else none) = some b) :
    p ∧ o = some b := by
  split at h
  next hp => exact ⟨hp, h⟩
  · cases h

theorem barred [Decidable p] {o : Option α} (h : (if p then none else o) = some b) :
    ¬ p ∧ o = some b := by
  split at h
  · cases h
  next hp => exact ⟨hp, h⟩

theorem guarded [Decidable p] {a : α} (h : (if p then some a else none) = some b) : p ∧ a = b :=
  (passed h).imp_right some.inj

/-- An event of a run is taken in between. -/
theorem exec_mem {e : ε} (h : exec step s es = some t) (he : e ∈ es) :
    ∃ pre post u v, es = pre ++ e :: post ∧
    exec step s pre = some u ∧ step u e = some v ∧ exec step v post = some t := by
  obtain ⟨pre, post, rfl⟩ := List.append_of_mem he
  obtain ⟨u, hu, hrest⟩ := exec_append_eq_some.1 h
  obtain ⟨v, hv, hpost⟩ := exec_cons_eq_some.1 hrest
  exact ⟨pre, post, u, v, rfl, hu, hv, hpost⟩

theorem of_exec {f : σ → ε → Option σ} {l : List ε} {P : σ → Prop}
    [DecidablePred P] (h : (exec f s l).any (fun t => decide (P t)) = true) :
    ∃ t, exec f s l = some t ∧ P t := by
  obtain ⟨t, ht, hP⟩ := (Option.any_eq_true _ _).1 h
  exact ⟨t, ht, of_decide_eq_true hP⟩

/-- Every event of the run meets `P` in the state it is taken in. -/
def Along (step : σ → ε → Option σ) (P : σ → ε → Prop) : σ → List ε → Prop
  | _, [] => True
  | s, e :: es => P s e ∧ ∀ t, step s e = some t → Along step P t es

instance Along.decidable (step : σ → ε → Option σ) (P : σ → ε → Prop) [∀ s e, Decidable (P s e)] :
    ∀ s es, Decidable (Along step P s es)
  | _, [] => isTrue trivial
  | s, e :: es =>
    match hstep : step s e with
    | none =>
      decidable_of_iff (P s e) ⟨fun h => ⟨h, fun t ht => by rw [hstep] at ht; cases ht⟩, And.left⟩
    | some t =>
      have := Along.decidable step P t es
      decidable_of_iff (P s e ∧ Along step P t es)
        ⟨fun h => ⟨h.1, fun u hu => by rw [hstep] at hu; exact some.inj hu ▸ h.2⟩,
          fun h => ⟨h.1, h.2 t hstep⟩⟩

theorem Along.of_append {u : σ}
    (h : Along step P s (es ++ fs)) (hu : exec step s es = some u) :
    Along step P s es ∧ Along step P u fs := by
  induction es generalizing s with
  | nil =>
    obtain rfl : s = u := by simpa using hu
    exact ⟨trivial, h⟩
  | cons e es ih =>
    obtain ⟨v, hv, hvu⟩ := exec_cons_eq_some.1 hu
    obtain ⟨hP, hrest⟩ := h
    have hsplit := ih (hrest v hv) hvu
    refine ⟨⟨hP, fun t ht => ?_⟩, hsplit.2⟩
    obtain rfl : v = t := some.inj (hv.symm.trans ht)
    exact hsplit.1

theorem Along.and {Q : σ → ε → Prop}
    (hP : Along step P s es) (hQ : Along step Q s es) :
    Along step (fun s e => P s e ∧ Q s e) s es := by
  induction es generalizing s with
  | nil => trivial
  | cons e es ih => exact ⟨⟨hP.1, hQ.1⟩, fun t ht => ih (hP.2 t ht) (hQ.2 t ht)⟩

theorem Along.of_forall {P : ε → Prop} (h : ∀ e ∈ es, P e) : Along step (fun _ e => P e) s es := by
  induction es generalizing s with
  | nil => trivial
  | cons e es ih =>
    obtain ⟨he, hes⟩ := List.forall_mem_cons.1 h
    exact ⟨he, fun t _ => ih hes⟩

/-- What the steps that meet `P` keep, every run of such steps keeps. -/
theorem invariant_along (hstep : ∀ s e t, I s → P s e → step s e = some t → I t)
    (hs : I s) (hP : Along step P s es) (h : exec step s es = some t) : I t := by
  induction es generalizing s with
  | nil =>
    obtain rfl : s = t := by simpa using h
    exact hs
  | cons e es ih =>
    obtain ⟨u, hu, ht⟩ := exec_cons_eq_some.1 h
    exact ih (hstep s e u hs hP.1 hu) (hP.2 u hu) ht

/-- What every step keeps, every run keeps. -/
theorem exec_invariant (hstep : ∀ s e t, I s → step s e = some t → I t)
    (hs : I s) (h : exec step s es = some t) : I t :=
  invariant_along (fun s e t hs _ => hstep s e t hs) hs (.of_forall fun _ _ => trivial) h

end Run
