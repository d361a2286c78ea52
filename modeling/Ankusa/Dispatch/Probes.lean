import Ankusa.Dispatch.Window

set_option autoImplicit false

/-! # The probes of the breakers

While a breaker is half-open, its probe is the only attempt started since it went half-open, and is
running; a parked row keeps its attempt count and is due by its horizon. The success of an attempt
from before the breaker opened closes the breaker while the probe is out, and the key runs on. An
error of a probe does not move the breaker when the breakers were disabled meanwhile, so runs with
one are left out where the probe has to run. -/

namespace Ankusa.Dispatch

open Option Function Run

variable {P : SinkKey → Prop} {s : State} {key : SinkKey}

/-- A half-open breaker has started its probe and nothing else, and under `P` the probe it names is
    running. -/
structure Probing (P : SinkKey → Prop) (s : State) : Prop where
  single : ∀ k b, s.breakers k = some b → b.state = .halfOpen →
    s.started k = if b.probe.isSome then 1 else 0
  named : ∀ k, P k → ∀ b r, s.breakers k = some b → b.state = .halfOpen → b.probe = some r →
    ∃ a ∈ s.running, a.ref = r ∧ a.job.key = k ∧ a.probe = true
  within : ∀ p ∈ s.parked, p.2.attempts = p.1.row.attempts ∧ p.2.time ≤ p.1.deadline

section

variable (h : Probing P s)
include h

theorem Probing.parked (j : Job) (time : Ms) :
    Probing P { s with parked := (j, retryRow j.row (min time j.deadline)) :: s.parked } :=
  ⟨h.single, h.named, List.forall_mem_cons.2 ⟨⟨rfl, Int.min_le_right time j.deadline⟩, h.within⟩⟩

theorem Probing.park (j : Job) (time : Ms) : Probing P (park s j time) :=
  ⟨h.single, h.named, (h.parked j time).within⟩

theorem Probing.parkJobs (key : SinkKey) (time : Ms) : Probing P (parkJobs s key time) := by
  refine List.foldlRecOn _ _ (motive := Probing P) ?_ fun t ht j _ => ht.park j time
  exact { h with }

theorem Probing.parkQueued (ord : Nat) (key : SinkKey) (time : Ms) :
    Probing P (parkQueued s ord key time) := by
  unfold Dispatch.parkQueued
  split
  · refine Probing.parkJobs ?_ key time
    unfold dropKey
    split
    · exact { h with }
    · exact h
  · exact h

end

/-- One key's breaker is set: nothing is to be shown of the others. -/
theorem Probing.set {Q : SinkKey → Prop} (h : Probing Q s) (k : SinkKey) (ob : Option Breaker)
    (started : SinkKey → Nat)
    (hQ : ∀ k' ≠ k, P k' → Q k') (hother : ∀ k' ≠ k, started k' = s.started k')
    (hsingle : ∀ b, ob = some b → b.state = .halfOpen → started k = if b.probe.isSome then 1 else 0)
    (hnamed : P k → ∀ b r, ob = some b → b.state = .halfOpen → b.probe = some r →
      ∃ a ∈ s.running, a.ref = r ∧ a.job.key = k ∧ a.probe = true) :
    Probing P { s with
      breakers := Function.update s.breakers k ob
      started := started } where
  single k' b hb := by
    by_cases hk : k' = k
    · subst hk
      exact hsingle b (by simpa using hb)
    · exact fun hs => (hother k' hk).trans (h.single k' b (by simpa [hk] using hb) hs)
  named k' hP b r hb := by
    by_cases hk : k' = k
    · subst hk
      exact hnamed hP b r (by simpa using hb)
    · exact h.named k' (hQ k' hk hP) b r (by simpa [hk] using hb)
  within := h.within

theorem Probing.admission (h : Probing P s) (key : SinkKey) (c : Clock) :
    Probing P (admission s key c).2 := by
  unfold Dispatch.admission
  split
  · split
    · split
      · exact h
      · refine h.set _ _ _ (fun _ _ => id) (fun k' hk => update_of_ne hk ..) ?_ ?_
        · rintro b ⟨⟩ -
          exact update_self ..
        · rintro - b r ⟨⟩ - hr
          cases hr
    · split <;> exact h
    · exact h
  · exact h

/-- A key that may run has no probe out. -/
theorem probe_of_admission {c : Clock} {t : State} (h : admission s key c = (none, t)) {b : Breaker}
    (hb : t.breakers key = some b) (hstate : b.state = .halfOpen) : b.probe = none := by
  unfold admission at h
  split at h
  next hb' =>
    split at h
    next =>
      split at h
      · cases h
      · cases h
        cases (update_self ..).symm.trans hb
        rfl
    next =>
      split at h
      · cases h
      next hprobe =>
        cases h
        cases hb'.symm.trans hb
        simpa using hprobe
    next hclosed =>
      cases h
      cases hb'.symm.trans hb
      cases hclosed.symm.trans hstate
  next hnone =>
    cases h
    cases hnone.symm.trans hb

section

variable (h : Probing P s)
include h

theorem Probing.enqueue (c : Job → Clock) (j : Job) : Probing P (enqueue c s j) := by
  have hadmitted := h.admission j.key (c j)
  unfold Dispatch.enqueue
  split
  next heq =>
    rw [heq] at hadmitted
    exact hadmitted.park j _
  next heq =>
    rw [heq] at hadmitted
    unfold push
    split <;> exact { hadmitted with }

theorem Probing.enqueueAll (c : Job → Clock) (jobs : List Job) :
    Probing P (jobs.foldl (Dispatch.enqueue c) s) :=
  List.foldlRecOn _ _ (motive := Probing P) h fun _ ht j _ => ht.enqueue c j

theorem Probing.stage (jobs : List Job) (c : Job → Clock) : Probing P (stage s jobs c) := by
  unfold Dispatch.stage
  dsimp only
  have hin : Probing P (jobs.foldl tenantAdd { s with
      claimed := s.claimed + jobs.length
      claimedBytes := s.claimedBytes + Slots.total Job.size jobs }) := by
    refine List.foldlRecOn _ _ (motive := Probing P) { h with } fun t ht j _ => ?_
    exact { ht with }
  have hq := hin.enqueueAll c (jobs.filter fun j => !j.packs)
  split <;> exact { hq with }

theorem Probing.resolve (now : Ms) (c : Job → Clock) (rows : List (Job × Bool)) :
    Probing P (resolve now c s rows).1 := by
  induction rows generalizing s with
  | nil => exact h
  | cons row rows ih =>
    have hadmitted := h.admission row.1.key (c row.1)
    rw [Dispatch.resolve]
    split
    next heq =>
      rw [heq] at hadmitted
      refine ih ?_
      split
      · exact hadmitted
      · exact hadmitted.parked row.1 _
    next heq =>
      rw [heq] at hadmitted
      exact ih hadmitted

/-- The job of a half-open key that starts is its probe. -/
theorem Probing.startOne (ord : Nat)
    (hfree : ∀ b, s.breakers key = some b → b.state = .halfOpen → b.probe = none) :
    Probing P (startOne s ord key) := by
  unfold Dispatch.startOne
  split
  · exact h
  next j hj =>
    have hkey : j.key = key := by simpa using List.find?_some hj
    let a : Attempt :=
      ⟨s.nextRef, j, (s.breakers key).any fun b => b.state = .halfOpen && b.probe.isNone⟩
    have hrun : Probing P { s with running := a :: s.running } := by
      refine ⟨h.single, fun k hP b r hb hs hr => ?_, h.within⟩
      obtain ⟨x, hx, hrest⟩ := h.named k hP b r hb hs hr
      exact ⟨x, List.mem_cons_of_mem _ hx, hrest⟩
    have hset := hrun.set key
      (if a.probe then (s.breakers key).map fun b => { b with probe := some s.nextRef }
        else s.breakers key)
      (Function.update s.started key (s.started key + 1)) (fun _ _ => id)
      (fun k' hk => update_of_ne hk ..) ?_ ?_
    · refine ⟨fun k b hb => hset.single k b ?_, fun k hP b r hb => hset.named k hP b r ?_,
        hset.within⟩
      all_goals
        refine Eq.trans ?_ hb
        dsimp only [count, a]
        split
        · rfl
        · rw [update_eq_self]
    · intro b hb hstate
      rw [update_self]
      split at hb
      next =>
        obtain ⟨b', hb', rfl⟩ := map_eq_some_iff.1 hb
        have hzero := h.single key b' hb' hstate
        rw [hfree b' hb' hstate] at hzero
        rw [hzero]
        rfl
      next hprobe =>
        refine absurd ?_ hprobe
        simp [a, hb, hstate, hfree b hb hstate]
    · intro _ b r hb hstate hr
      split at hb
      next hprobe =>
        obtain ⟨b', hb', rfl⟩ := map_eq_some_iff.1 hb
        exact ⟨a, List.mem_cons_self, some.inj hr, hkey, hprobe⟩
      next =>
        rw [hfree b hb hstate] at hr
        cases hr

theorem Probing.finishTenant (ord : Nat) : Probing P (finishTenant s ord) :=
  { h with }

theorem Probing.startFromTenant (c : Nat → Clock) (ord turns : Nat) :
    Probing P (startFromTenant c ord s turns) := by
  induction turns generalizing s with
  | zero => exact h.finishTenant ord
  | succ turns ih =>
    rw [Dispatch.startFromTenant]
    split
    · exact h.finishTenant ord
    next key _ =>
      have hout : Probing P { s with rings := s.rings.erase (ord, key) } := { h with }
      have hadmitted := hout.admission key (c turns)
      dsimp only
      split
      next heq =>
        rw [heq] at hadmitted
        exact ih (hadmitted.parkJobs key _)
      next heq =>
        rw [heq] at hadmitted
        split
        · exact ih { hadmitted with }
        · exact (hadmitted.startOne ord fun b => probe_of_admission heq).finishTenant ord

end

/-- The outcome of an attempt: that of a probe leaves no half-open breaker, unless the breakers are
    disabled. -/
theorem Probing.trip {a : Attempt}
    (h : Probing (fun k => P k ∧ (k = a.job.key → a.probe = false)) s) (o : Outcome)
    (c : Clock) (hheeded : P a.job.key → a.probe = true → o ≠ .ok → s.cfg.breakerFailures ≠ 0) :
    Probing P (trip s a o c) := by
  have hother : ∀ k ≠ a.job.key, P k → P k ∧ (k = a.job.key → a.probe = false) := fun k hk hP =>
    ⟨hP, fun heq => absurd heq hk⟩
  have hset (b : Option Breaker) := h.set a.job.key b s.started hother fun _ _ => rfl
  have hclose := hset none nofun nofun
  -- The state is left as it is: the attempt is no probe, or the run is left out.
  have hsame (hprobe : P a.job.key → a.probe = false) : Probing P s :=
    ⟨h.single, fun k hP => h.named k ⟨hP, fun hk => hprobe (hk ▸ hP)⟩, h.within⟩
  have hoff (hzero : s.cfg.breakerFailures = 0) (ho : o ≠ .ok) : Probing P s := by
    refine hsame fun hP => Bool.eq_false_iff.2 fun hprobe => ?_
    exact hheeded hP hprobe ho hzero
  cases o with
  | ok => exact hclose
  | permanent =>
    simp only [Dispatch.trip]
    split
    next hzero => exact hoff hzero nofun
    next =>
      split
      · exact hclose
      next hprobe => exact hsame fun _ => by simpa using hprobe
  | failed =>
    simp only [Dispatch.trip]
    split
    next hzero => exact hoff hzero nofun
    next =>
      split
      · refine Probing.parkQueued (hset (some _) ?_ ?_) ..
        · rintro b ⟨⟩ ⟨⟩
        · rintro - b r ⟨⟩ ⟨⟩
      next hcalm =>
        have hprobe : a.probe = false := Bool.eq_false_iff.2 fun hp => hcalm (by simp [hp])
        -- A half-open breaker only counts the failure of an older attempt.
        cases hb : s.breakers a.job.key with
        | none =>
          refine hset (some _) ?_ ?_
          · rintro b ⟨⟩ ⟨⟩
          · rintro - b r ⟨⟩ ⟨⟩
        | some b =>
          refine hset (some _) ?_ ?_
          · rintro b' ⟨⟩ hstate
            exact h.single _ b hb hstate
          · rintro hP b' r ⟨⟩ hstate hr
            exact h.named _ ⟨hP, fun _ => hprobe⟩ b r hb hstate hr

/-- No probe ends with an error while the breakers are disabled. -/
def heeded (s : State) : Event → Bool
  | .outcome i o _ => (s.running[i]?).all fun a => !a.probe || o = .ok || s.cfg.breakerFailures ≠ 0
  | _ => true

theorem Probing.step {e : Event} {t : State} (h : Probing P s)
    (hheeded : (∃ k, P k) → heeded s e = true) (hstep : step s e = some t) : Probing P t := by
  cases e with
  | claim rows now found queued =>
    simp only [Dispatch.step] at hstep
    split at hstep <;> cases hstep
    exact (h.resolve now found rows).stage _ queued
  | packed i c =>
    obtain ⟨jobs, -, rfl⟩ := map_eq_some_iff.1 hstep
    refine Probing.enqueueAll ?_ c _
    exact { h with }
  | turn c =>
    simp only [Dispatch.step, turn] at hstep
    split at hstep
    · cases hstep
    split at hstep
    · cases hstep
    split at hstep <;> cases hstep
    · exact { h with }
    · refine Probing.startFromTenant ?_ c ..
      exact { h with }
  | outcome i o c =>
    obtain ⟨a, ha, rfl⟩ := map_eq_some_iff.1 hstep
    refine Probing.trip ?_ o c fun hP hprobe ho => ?_
    · refine ⟨h.single, fun k hP b r hb hs hr => ?_, h.within⟩
      obtain ⟨x, hx, href, hkey, hprobe⟩ := h.named k hP.1 b r hb hs hr
      obtain rfl | hx := List.mem_cons.1 ((Slots.perm_eraseIdx ha).mem_iff.1 hx)
      · cases (hP.2 hkey.symm).symm.trans hprobe
      · exact ⟨x, hx, href, hkey, hprobe⟩
    · have hmet : s.cfg.breakerFailures ≠ 0 := by
        simpa [heeded, ha, hprobe, ho] using hheeded ⟨_, hP⟩
      exact hmet
  | reconfigure =>
    cases hstep
    exact { h with }

theorem Probing.start (cfg : Config) : Probing P (.start cfg) :=
  ⟨nofun, fun _ _ => nofun, nofun⟩

theorem halfOpen_probe {cfg : Config} {es : List Event}
    (hrun : Run.exec step (.start cfg) es = some s) :
    (∀ k b, s.breakers k = some b → b.state = .halfOpen → s.started k ≤ 1 ∧
      (Run.Along step (fun s e => heeded s e = true) (.start cfg) es → ∀ r, b.probe = some r →
        ∃ a ∈ s.running, a.ref = r ∧ a.job.key = k ∧ a.probe = true)) ∧
      ∀ p ∈ s.parked, p.2.attempts = p.1.row.attempts ∧ p.2.time ≤ p.1.deadline := by
  have hany : Probing (fun _ => False) s :=
    exec_invariant (fun _ _ _ h => h.step fun hk => hk.choose_spec.elim) (.start cfg) hrun
  refine ⟨fun k b hb hstate => ⟨?_, fun hheeded r => ?_⟩, hany.within⟩
  · rw [hany.single k b hb hstate]
    split <;> decide
  · have hall : Probing (fun _ => True) s :=
      invariant_along (fun _ _ _ h hmet => h.step fun _ => hmet) (.start cfg) hheeded hrun
    exact hall.named k trivial b r hb hstate

/-- Hooks of one sink, and a breaker that opens at the first failure. -/
def hook (seq : Nat) : Job := ⟨⟨"t", "src", 0, "Sink"⟩, 1, seq, 3, ⟨seq, 0⟩, 40, false, false⟩

/-- One failure opens a breaker. -/
def oneFailure : Config := ⟨8, none, fun _ => 8, 1, 10, 100⟩

/-- Two attempts run when the first fails and opens the breaker; the third hook is parked and
    claimed again, and is the probe. -/
def probed : List Event :=
  [.claim [(hook 1, true), (hook 2, true)] 30 (fun _ => ⟨0, 30⟩) fun _ => ⟨0, 30⟩,
    .turn fun _ => ⟨0, 30⟩, .turn fun _ => ⟨0, 30⟩, .outcome 1 .failed ⟨5, 35⟩,
    .claim [(hook 3, true)] 36 (fun _ => ⟨6, 36⟩) fun _ => ⟨6, 36⟩,
    .claim [(hook 3, true)] 45 (fun _ => ⟨15, 45⟩) fun _ => ⟨15, 45⟩, .turn fun _ => ⟨15, 45⟩]

theorem probed_probe : ∃ s b, Run.exec step (.start oneFailure) probed = some s ∧
    s.breakers (hook 1).key = some b ∧ b.state = .halfOpen ∧ s.started (hook 1).key ≤ 1 ∧
    (∃ a ∈ s.running, a.ref = 2 ∧ a.job.key = (hook 1).key ∧ a.probe = true) ∧
    (hook 3, ⟨3, 40⟩) ∈ s.parked ∧ (40 : Ms) ≤ (hook 3).deadline := by
  obtain ⟨s, hrun, hb, hparked⟩ : ∃ s, exec step (.start oneFailure) probed = some s ∧
      s.breakers (hook 1).key = some ⟨.halfOpen, 1, 1, 15, some 2⟩ ∧ (hook 3, ⟨3, 40⟩) ∈ s.parked :=
    of_exec (by decide +kernel)
  have hprobe := halfOpen_probe hrun
  obtain ⟨hstarted, hnamed⟩ := hprobe.1 _ _ hb rfl
  exact ⟨s, _, hrun, hb, rfl, hstarted, hnamed (by decide +kernel) 2 rfl, hparked,
    (hprobe.2 _ hparked).2⟩

/-- The older attempt succeeds and closes the breaker: another attempt starts while the probe
    runs. -/
theorem probed_started_two : ∃ s, Run.exec step (.start oneFailure)
      (probed ++ [.outcome 1 .ok ⟨16, 46⟩,
        .claim [(hook 4, true)] 46 (fun _ => ⟨16, 46⟩) fun _ => ⟨16, 46⟩,
        .turn fun _ => ⟨16, 46⟩]) = some s ∧
    (∃ a ∈ s.running, a.job = hook 3 ∧ a.probe = true) ∧ s.started (hook 3).key = 2 :=
  of_exec (by decide +kernel)

end Ankusa.Dispatch
