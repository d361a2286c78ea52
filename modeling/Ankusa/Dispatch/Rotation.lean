import Ankusa.Dispatch.Fill

set_option autoImplicit false

/-! # The rotation over the active tenants

A scan visits the tenants that are active when it starts, those not reached since the last full
round first. When it is over, the tenants it reached count as served, as long as they stay active,
and the round starts over once every active tenant has been reached. A scan that ends in an error
leaves this as it was. The code keeps one set, `served`; `rotation` says of the scans so far which
of them make up the round, and the set is what they say. -/

namespace Ankusa.Dispatch

open List Run

/-- The scans of the pipeline, with the tenants served. -/
structure Rotation where
  filling : Filling
  served : List Nat
  /-- The tenants of the scan, and those it has reached, the last one first. -/
  active : List Nat
  reached : List Nat
  /-- Every scan that has ended without an error, the last one first: the active tenants and those
    reached. -/
  scans : List (List Nat × List Nat)

/-- The tenant was reached in one of the rounds and was active in every one since. -/
def servedIn : List (List Nat × List Nat) → Nat → Bool
  | [], _ => false
  | (active, reached) :: rounds, o => active.elem o && (reached.elem o || servedIn rounds o)

/-- The scans of the current rotation: one with which every active tenant has been reached starts it
    over. -/
def rotation : List (List Nat × List Nat) → List (List Nat × List Nat)
  | [] => []
  | (active, reached) :: scans =>
    if active.all fun o => reached.elem o || servedIn (rotation scans) o then []
    else (active, reached) :: rotation scans

/-- The tenants that go first. -/
def fresh (rounds : List (List Nat × List Nat)) (tenants : List Nat) : List Nat :=
  tenants.filter fun o => !servedIn rounds o

namespace Rotation

/-- The events of the scans. -/
inductive Event where
  | fill (e : Filling.Event)
  /-- A scan finds no active tenant. -/
  | idle

/-- The end of a scan: the tenants reached are served, until all of them are. -/
def markServed (s : Rotation) : Rotation :=
  let served := s.active.filter fun o => s.served.elem o || s.reached.elem o
  { s with served := if served = s.active then [] else served }

/-- The scan has ended without an error. -/
def endScan (s : Rotation) : Rotation :=
  { s.markServed with scans := (s.active, s.reached) :: s.scans }

/-- The tenant that the next step of the scan reaches. -/
def next (s : Rotation) : Option Nat :=
  s.filling.scan.bind fun acc => if acc.over then none else acc.todo.head?

section

variable (w : Windows) (tenant : Nat → String)

/-- A scan takes the tenants not served first. -/
def step (s : Rotation) : Event → Option Rotation
  | .fill (.scan tenants) =>
    if tenants.Nodup then
      let (fresh, reached) :=
        (tenants.filter fun o => !s.served.elem o, tenants.filter s.served.elem)
      (Filling.step w tenant s.filling (.scan (fresh ++ reached))).map fun filling =>
        { s with filling, active := tenants, reached := [] }
    else none
  | .fill (.visit v) =>
    (Filling.step w tenant s.filling (.visit v)).map fun filling =>
      let t := { s with filling, reached := s.next.toList ++ s.reached }
      if filling.scan.isNone then t.endScan else t
  | .fill e => (Filling.step w tenant s.filling e).map fun filling => { s with filling }
  | .idle => if s.filling.scan.isSome then none
    else some { s with served := [], scans := ([], []) :: s.scans }

/-- No tenant is served yet. -/
def start (cfg : Config) : Rotation := ⟨.start cfg, [], [], [], []⟩

end

/-- While a scan is in its first pass, it has reached the first tenants of its order; later, all of
    them. -/
structure Turning (s : Rotation) : Prop where
  served : ∀ o, s.served.elem o = servedIn (rotation s.scans) o
  last : ∀ active reached rounds, rotation s.scans = (active, reached) :: rounds →
    active.Nodup ∧ ∃ later, later ≠ [] ∧ fresh rounds active = reached.reverse ++ later
  scan : ∀ acc, s.filling.scan = some acc → s.active.Nodup ∧ ((∃ later,
    fresh (rotation s.scans) s.active ++ s.active.filter (servedIn (rotation s.scans)) =
    s.reached.reverse ++ later ∧
      (acc.todo = later ∨ acc.over = true ∧ acc.todo = [])) ∨ ∀ a ∈ s.active, a ∈ s.reached)

variable {w : Windows} {tenant : Nat → String} {s t : Rotation}
  {rounds : List (List Nat × List Nat)} {f : Filling} {tenants : List Nat}

/-- The tenants that go first come before the others. -/
theorem fresh_prefix {active reached later : List Nat} {a : Nat}
    (horder : fresh rounds active ++ active.filter (servedIn rounds) = reached.reverse ++ later)
    (ha : a ∈ fresh rounds active) (hleft : a ∉ reached) :
    ∃ rest, rest ≠ [] ∧ fresh rounds active = reached.reverse ++ rest := by
  rcases append_eq_append_iff.1 horder with ⟨rest, hreached, -⟩ | ⟨rest, hfresh, -⟩
  · exact absurd (mem_reverse.1 (hreached ▸ mem_append_left _ ha)) hleft
  · refine ⟨rest, fun hnil => hleft ?_, hfresh⟩
    rw [hfresh, hnil, append_nil] at ha
    exact mem_reverse.1 ha

/-- The scan is over: it has reached the first tenants of its order, or all of them. -/
theorem Turning.endScan (h : Turning s) (hnodup : s.active.Nodup) (hover : s.filling.scan = none)
    (horder : (∃ later, fresh (rotation s.scans) s.active ++
      s.active.filter (servedIn (rotation s.scans)) =
      s.reached.reverse ++ later) ∨ ∀ a ∈ s.active, a ∈ s.reached) :
    Turning s.endScan := by
  have hfull : (s.active.filter fun o => s.served.elem o || s.reached.elem o) = s.active ↔
      (s.active.all fun o => s.reached.elem o || servedIn (rotation s.scans) o) = true := by
    simp only [filter_eq_self, all_eq_true, h.served, Bool.or_comm]
  have hscan : ∀ acc, s.filling.scan ≠ some acc := fun acc hacc => by simp [hover] at hacc
  by_cases hall : (s.active.all fun o => s.reached.elem o || servedIn (rotation s.scans) o) = true
  · have hnone : rotation ((s.active, s.reached) :: s.scans) = [] := if_pos hall
    refine ⟨fun o => ?_, fun active reached rounds hrounds => ?_,
      fun acc hacc => absurd hacc (hscan acc)⟩
    · simp only [Rotation.endScan, Rotation.markServed, hfull.2 hall, hnone, if_true]
      rfl
    · cases hnone.symm.trans hrounds
  · have hpush : rotation ((s.active, s.reached) :: s.scans) =
      (s.active, s.reached) :: rotation s.scans := if_neg hall
    refine ⟨fun o => ?_, fun active reached rounds hrounds => ?_,
      fun acc hacc => absurd hacc (hscan acc)⟩
    · simp only [Rotation.endScan, Rotation.markServed, mt hfull.1 hall, hpush, if_false]
      simp [servedIn, ← h.served, Bool.or_comm]
    · obtain ⟨⟨rfl, rfl⟩, rfl⟩ : (s.active = active ∧ s.reached = reached) ∧
          rotation s.scans = rounds := by
        simpa using hpush.symm.trans hrounds
      refine ⟨hnodup, ?_⟩
      obtain ⟨a, ha, hunserved⟩ : ∃ a ∈ s.active,
          ¬ (s.reached.elem a || servedIn (rotation s.scans) a) = true := by
        simpa using hall
      rw [Bool.not_eq_true, Bool.or_eq_false_iff] at hunserved
      have hnot : a ∉ s.reached := by simpa using hunserved.1
      obtain ⟨later, horder⟩ := horder.resolve_right fun hall => hnot (hall a ha)
      exact fresh_prefix horder (mem_filter.2 ⟨ha, by simp [hunserved.2]⟩) hnot

/-- What one step of a scan does with the tenants it has to visit. -/
theorem visit_cases {f' : Filling} {v : Visit} (h : Filling.step w tenant f (.visit v) = some f') :
    ∃ acc, f.scan = some acc ∧ (acc.todo = [] ∧ f'.scan = none ∨
      ∃ acc', f'.scan = some acc' ∧ (acc.todo = [] ∧ acc.over = false ∨
        acc.over = true ∧ acc'.over = true ∧ acc'.todo = [] ∨
        acc.over = false ∧ ∃ o, acc.todo = o :: acc'.todo)) := by
  obtain ⟨acc, hacc, h⟩ := Option.bind_eq_some_iff.1 h
  refine ⟨acc, hacc, ?_⟩
  split at h
  next htodo =>
    split at h
    · cases h
      exact .inl ⟨htodo, rfl⟩
    next hgoes =>
      cases h
      simp only [Bool.or_eq_true, not_or, Bool.not_eq_true] at hgoes
      exact .inr ⟨_, rfl, .inl ⟨htodo, hgoes.2⟩⟩
  next o rest htodo =>
    split at h
    next hover =>
      cases h
      exact .inr ⟨_, rfl, .inr (.inl ⟨hover, hover, rfl⟩)⟩
    next hover =>
      obtain ⟨⟨base, acc'⟩, hpass, rfl⟩ := Option.map_eq_some_iff.1 h
      refine .inr ⟨acc', rfl, .inr (.inr ⟨by simpa using hover, o, ?_⟩)⟩
      unfold passTenant at hpass
      dsimp only at hpass
      split at hpass
      · cases hpass
        exact htodo
      · obtain ⟨_, -, heq⟩ := Option.map_eq_some_iff.1 hpass
        cases heq
        exact htodo

theorem Turning.visit {v : Visit} (h : Turning s)
    (hstep : Filling.step w tenant s.filling (.visit v) = some f) :
    Turning (if f.scan.isNone then
      Rotation.endScan { s with filling := f, reached := s.next.toList ++ s.reached }
      else { s with filling := f, reached := s.next.toList ++ s.reached }) := by
  obtain ⟨acc, hacc, hcases⟩ := visit_cases hstep
  obtain ⟨hnodup, horder⟩ := h.scan acc hacc
  rcases hcases with ⟨htodo, hover⟩ | ⟨acc', hacc', hcases⟩
  · have hnext : s.next = none := by simp [next, hacc, htodo]
    rw [hover, hnext]
    exact Turning.endScan ⟨h.served, h.last, fun _ hscan => by simp [hover] at hscan⟩
      hnodup hover (horder.imp_left fun ⟨later, horder, _⟩ => ⟨later, horder⟩)
  rw [hacc', Option.isNone_some, if_neg Bool.false_ne_true]
  refine ⟨h.served, h.last, fun _ hscan => ⟨hnodup, ?_⟩⟩
  obtain rfl : acc' = _ := Option.some.inj (hacc'.symm.trans hscan)
  rcases hcases with ⟨htodo, hover⟩ | ⟨hover, hover', htodo'⟩ | ⟨hover, o, htodo⟩
  · -- The pass is over, so it has reached every tenant.
    have hnext : s.next = none := by simp [next, hacc, htodo]
    right
    rw [hnext]
    rcases horder with ⟨later, horder, hlater | ⟨hfull, -⟩⟩ | hall
    · intro a ha
      rw [← hlater, htodo, append_nil] at horder
      rw [← mem_reverse]
      show a ∈ s.reached.reverse
      rw [← horder]
      by_cases hserved : servedIn (rotation s.scans) a <;> simp [fresh, ha, hserved]
    · rw [hover] at hfull
      cases hfull
    · exact hall
  · have hnext : s.next = none := by simp [next, hacc, hover]
    rw [hnext]
    exact horder.imp_left fun ⟨later, horder, _⟩ => ⟨later, horder, .inr ⟨hover', htodo'⟩⟩
  · have hnext : s.next = some o := by simp [next, hacc, hover, htodo]
    rw [hnext]
    rcases horder with ⟨later, horder, hlater | ⟨hfull, -⟩⟩ | hall
    · exact .inl ⟨acc'.todo, by simp [horder, ← hlater, htodo], .inl rfl⟩
    · rw [hover] at hfull
      cases hfull
    · exact .inr fun a ha => mem_cons_of_mem _ (hall a ha)

/-- The order of a scan. -/
theorem Turning.scans (h : Turning s) (hstep : step w tenant s (.fill (.scan tenants)) = some t) :
    tenants.Nodup ∧ ∃ acc, t =
    { s with filling := ⟨s.filling.base, some acc⟩, active := tenants, reached := [] } ∧
      acc.todo = fresh (rotation s.scans) tenants ++
      tenants.filter (servedIn (rotation s.scans)) := by
  obtain ⟨hnodup, hstep⟩ := Run.passed hstep
  obtain ⟨f, hf, rfl⟩ := Option.map_eq_some_iff.1 hstep
  refine ⟨hnodup, ?_⟩
  obtain ⟨-, hf⟩ := Run.barred hf
  cases hf
  refine ⟨_, rfl, ?_⟩
  simp only [fresh, h.served]

theorem work_idle {f' : Filling} {e : Dispatch.Event}
    (h : Filling.step w tenant f (.work e) = some f') :
    f.scan = none ∧ ∃ base, f' = { f with base } := by
  cases e <;> simp only [Filling.step] at h
  case claim => cases h
  all_goals
    obtain ⟨hidle, h⟩ := Run.barred h
    obtain ⟨base, -, rfl⟩ := Option.map_eq_some_iff.1 h
    exact ⟨by simpa using hidle, base, rfl⟩

theorem Turning.step {e : Event} (h : Turning s) (hstep : step w tenant s e = some t) :
    Turning t := by
  cases e with
  | idle =>
    obtain ⟨hidle, hstep⟩ := Run.barred hstep
    cases hstep
    exact ⟨fun _ => rfl, fun _ _ _ hnil => (by cases hnil),
      fun acc hacc => absurd (Option.isSome_of_mem hacc) hidle⟩
  | fill e =>
    cases e with
    | scan =>
      obtain ⟨hnodup, acc, rfl, htodo⟩ := h.scans hstep
      exact ⟨h.served,
        h.last, fun _ hacc => ⟨hnodup, .inl ⟨_, rfl, .inl (by cases hacc; exact htodo)⟩⟩⟩
    | visit =>
      obtain ⟨f, hf, rfl⟩ := Option.map_eq_some_iff.1 hstep
      exact h.visit hf
    | holdoff =>
      obtain ⟨f, hf, rfl⟩ := Option.map_eq_some_iff.1 hstep
      obtain ⟨acc, -, rfl⟩ := Option.map_eq_some_iff.1 hf
      exact ⟨h.served, h.last, nofun⟩
    | work =>
      obtain ⟨f, hf, rfl⟩ := Option.map_eq_some_iff.1 hstep
      obtain ⟨hidle, base, rfl⟩ := work_idle hf
      exact ⟨h.served, h.last, fun acc hacc => by simp [hidle] at hacc⟩

theorem Turning.start (cfg : Config) : Turning (.start cfg) := ⟨fun _ => rfl, nofun, nofun⟩

/-- A scan of the tenants that the last one had goes on after the last tenant that one reached. -/
theorem Turning.resumes {reached : List Nat} (h : Turning s)
    (hlast : rotation s.scans = (tenants, reached) :: rounds) : ∃ later, later ≠ [] ∧
      fresh rounds tenants = reached.reverse ++ later ∧
      fresh (rotation s.scans) tenants = later := by
  obtain ⟨hnodup, later, hne, hfresh⟩ := h.last _ _ _ hlast
  refine ⟨later, hne, hfresh, ?_⟩
  have hdisjoint :=
    (nodup_append.1 (hfresh ▸ hnodup.filter _ : (reached.reverse ++ later).Nodup)).2.2
  calc fresh (rotation s.scans) tenants = (fresh rounds tenants).filter fun o =>
      !reached.elem o := by
        rw [fresh, fresh, filter_filter, hlast]
        refine filter_congr fun o ho => ?_
        simp [servedIn, ho]
    _ = later := by
        rw [hfresh, filter_append, filter_eq_nil_iff.2 (by simp), nil_append, filter_eq_self]
        intro o ho
        have hnot : o ∉ reached := fun hin => hdisjoint o (mem_reverse.2 hin) o ho rfl
        simpa using hnot

end Rotation

/-- A store with one due row for each of three tenants. -/
def oneDue : Visit :=
  { twoDue true with store :=
    (∅ : Store).write ([1, 2, 3].map fun o => .put (.due o 0 o 0) (.due 1 .firstAttempt)) }

/-- A scan of three tenants. -/
def page : List Rotation.Event := .fill (.scan [1, 2, 3]) :: replicate 4 (.fill (.visit oneDue))

end Ankusa.Dispatch
