import Ankusa.Delivery.Marked
import Ankusa.Delivery.Placed

set_option autoImplicit false

/-! # The sweep of active markers

A scan finds the tenants with due rows by their active markers (`Deliveries.active_tenants`). After
a visit the Pipeline removes a tenant's stale markers, "delete, then verify"
(`Deliveries.sweep_markers`): it reads the tenant's first due row, deletes the visited markers of
earlier seconds, reads the tenant again and puts back the marker of a deleted second in which a row
has turned up. The queue's writer and the replay jobs write between any two of these steps. A row
that lands in a second just before its marker is deleted has none until the marker is back; apart
from that window every due row has the marker of its own second, provided each sweep that has
deleted markers comes to its end and looks at all the rows that turned up. The code does not see to
that: a sweep that fails or is stopped halfway is not taken up again, and a verification stops after
`verifyMax` rows. -/

namespace Ankusa.Delivery.Markers

open Deliveries KV List Run

/-! ## What the sweep and the scan read -/

/-- The times of a tenant's due rows. -/
def dueTimes (s : Store) (ord : Nat) : List Ms :=
  s.keys.filterMap fun
    | .due o time _ _ => if o = ord then some time else none
    | _ => none

/-- The time of the tenant's earliest due row, from the start of its range. -/
def firstDue (s : Store) (ord : Nat) : Option Ms := (dueTimes s ord).min?

/-- The tenant still has a lane marker: a member that waits for its fsync. -/
def lanesHeld (s : Store) (ord : Nat) : Bool :=
  s.keys.any fun
    | .laneMarker o _ => o = ord
    | _ => false

/-- Rows a marker cleanup looks at to restore a marker a racing writer needs. -/
def verifyMax : Nat := 256

/-- The times of the tenant's due rows before a second, in key order. -/
def timesBefore (s : Store) (ord : Nat) (bucket : Int) : List Ms :=
  ((dueTimes s ord).filter fun time => time < bucket * 1000).insertionSort (· ≤ ·)

/-- `restore_markers`: the deleted seconds that have a row after all. -/
def restored (s : Store) (ord : Nat) (stale : List Int) (firstBucket : Int) : List Int :=
  let buckets := ((timesBefore s ord firstBucket).take verifyMax).map (· / 1000)
  stale.filter fun bucket => bucket ∈ buckets

/-! ## The machine -/

/-- Where a sweep is. -/
inductive Sweep where
  | idle
  /-- The first row is read; the lanes are looked at next, if the node has any. -/
  | reading (ord : Nat) (stale : List Int) (firstBucket : Int) (lanes : Bool)
  | deleting (ord : Nat) (stale : List Int) (firstBucket : Int)
  | verifying (ord : Nat) (stale : List Int) (firstBucket : Int)
  | restoring (ord : Nat) (buckets : List Int)
  deriving DecidableEq, Repr

/-- The Pipeline, with the marker sweep of a visit. -/
structure State where
  base : Delivery.State
  sweep : Sweep

/-- The steps of the Pipeline and those of its sweep. -/
inductive Event where
  | delivery (e : Delivery.Event)
  /-- A visit is over: `buckets` are the tenant's markers that it read. -/
  | tidy (ord : Nat) (buckets : List Int) (now : Ms) (lanes : Bool)
  | held
  | delete (ok : Bool)
  | verify
  | restore
  /-- A read or a write of the sweep failed, which ends it. -/
  | halt
  /-- The Pipeline stops and starts again. -/
  | restart

/-- What other processes than the Pipeline do. -/
def outside : Delivery.Event → Bool
  | .commit _ | .revive _ _ _ _ | .candidates _ | .evict _ | .evicted _ _ | .purgeDead _
  | .damage _ _ _ => true
  | _ => false

/-- One step of the Pipeline, or one read or write of its sweep. -/
def step (s : State) : Event → Option State
  | .delivery e =>
    -- The sweep is one call of the Pipeline, which does nothing else meanwhile.
    if s.sweep = .idle ∨ outside e = true then
      (Delivery.step s.base e).map fun base => { s with base := base }
    else none
  | .tidy ord buckets now lanes =>
    if s.sweep = .idle ∧ s.base.doing = .idle then
      let current := now / 1000
      let candidates := buckets.filter fun bucket => bucket < current
      let firstBucket := match firstDue s.base.store ord with
        | some first => first / 1000
        | none => current
      let stale := candidates.filter fun bucket => bucket < firstBucket
      if stale = [] then some s else some { s with sweep := .reading ord stale firstBucket lanes }
    else none
  | .held =>
    match s.sweep with
    | .reading ord stale firstBucket lanes =>
      if lanes && lanesHeld s.base.store ord then some { s with sweep := .idle }
      else some { s with sweep := .deleting ord stale firstBucket }
    | _ => none
  | .delete ok =>
    match s.sweep with
    | .deleting ord stale firstBucket =>
      if ok then
        some {
          base := { s.base with
            store := s.base.store.write (stale.map fun b => .delete (.active b ord)) }
          sweep := .verifying ord stale firstBucket }
      else some { s with sweep := .idle }
    | _ => none
  | .verify =>
    match s.sweep with
    | .verifying ord stale firstBucket =>
      some { s with sweep := .restoring ord (restored s.base.store ord stale firstBucket) }
    | _ => none
  | .restore =>
    match s.sweep with
    | .restoring ord buckets =>
      some {
        base := { s.base with
          store := s.base.store.write (buckets.map fun b => .put (.active b ord) .empty) }
        sweep := .idle }
    | _ => none
  | .halt => some { s with sweep := .idle }
  | .restart => (Delivery.step s.base .restart).map fun base => { base := base, sweep := .idle }

/-- A node before its first step. -/
def boot (rows : List Legacy) (next : Nat) : State where
  base := Delivery.boot rows next
  sweep := .idle

/-- A sweep has deleted markers and not put any back yet. -/
def Sweep.halfway : Sweep → Bool
  | .verifying _ _ _ | .restoring _ _ => true
  | _ => false

/-- A verification looks at every row it has to, and no sweep ends halfway. -/
def thorough (s : State) : Event → Bool
  | .verify =>
    match s.sweep with
    | .verifying ord _ firstBucket => (timesBefore s.base.store ord firstBucket).length ≤ verifyMax
    | _ => true
  | .halt | .restart => !s.sweep.halfway
  | _ => true

/-! ## Markers of due rows -/

/-- Every due row has the marker of its second, unless that one is owed. -/
def Kept (s : Store) (owed : Nat → Int → Prop) : Prop :=
  ∀ o t q i, s.get (.due o t q i) ≠ none → s.get (.active (t / 1000) o) ≠ none ∨ owed o (t / 1000)

variable {s : Store} {b : Int} {o : Nat}
  {ops : List Op} {stale : List Int} {t : State} {tenants : List (Nat × List Int)} {now : Ms}

theorem marker_write (hops : Marked ops)
    (h : s.get (.active b o) ≠ none ∨ ∃ v, .put (.active b o) v ∈ ops) :
    (s.write ops).get (.active b o) ≠ none := by
  have hputs : ∀ op ∈ ops, op.key = .active b o → ∃ v, op = .put (.active b o) v :=
    fun op hop => (hops op hop).1 b o
  by_cases hmem : ∃ op ∈ ops, op.key = .active b o
  · obtain ⟨v, -, hget⟩ := Map.get_write_of_puts s hmem hputs
    simp [hget]
  · rcases h with hs | ⟨v, hv⟩
    · rwa [Map.get_untouched s fun op hop hk => hmem ⟨op, hop, hk⟩]
    · exact absurd ⟨_, hv, rfl⟩ hmem

theorem Kept.write {owed : Nat → Int → Prop} (h : Kept s owed) (hops : Marked ops) :
    Kept (s.write ops) owed := by
  intro o t q i hdue
  rcases Map.get_write_ne_none hdue with hold | ⟨op, hop, hc, hk⟩
  · exact (h o t q i hold).imp_left fun hs => marker_write hops (.inl hs)
  · exact .inl (marker_write hops (.inr ((hops op hop).2 o t q i hk hc).2))

theorem Kept.mono {owed owed' : Nat → Int → Prop} (h : Kept s owed)
    (hle : ∀ o t q i, s.get (.due o t q i) ≠ none → owed o (t / 1000) → owed' o (t / 1000)) :
    Kept s owed' := fun o t q i hdue => (h o t q i hdue).imp_right (hle o t q i hdue)

variable {ord : Nat}

theorem Kept.delete (h : Kept s fun _ _ => False) :
    Kept (s.write (stale.map fun b => .delete (.active b ord))) fun o b => o = ord ∧ b ∈ stale := by
  intro o t q i hdue
  have hsame : ∀ k, (∀ b ∈ stale, k ≠ .active b ord) →
      (s.write (stale.map fun b => .delete (.active b ord))).get k = s.get k := by
    intro k hk
    exact Map.get_untouched s (forall_mem_map.2 fun b hb heq => hk b hb heq.symm)
  by_cases howed : o = ord ∧ t / 1000 ∈ stale
  · exact .inr howed
  rw [hsame (.due o t q i) fun b _ => nofun] at hdue
  refine .inl ?_
  rw [hsame _ fun b hb heq => ?_]
  · exact (h o t q i hdue).resolve_right id
  · obtain ⟨rfl, rfl⟩ := Key.active.inj heq
    exact howed ⟨rfl, hb⟩

theorem mem_keys_of_get {k : Key} (h : s.get k ≠ none) : k ∈ s.keys :=
  AList.mem_keys.2 (AList.lookup_isSome.1 (Option.isSome_iff_ne_none.2 h))

theorem mem_dueTimes {q i : Nat} {t : Ms} (h : s.get (.due o t q i) ≠ none) :
    t ∈ dueTimes s o := mem_filterMap.2 ⟨.due o t q i, mem_keys_of_get h, by simp⟩

theorem Kept.restored {firstBucket : Int}
    (h : Kept s fun o b => o = ord ∧ b ∈ stale) (hearly : ∀ b ∈ stale, b < firstBucket)
    (hlooked : (timesBefore s ord firstBucket).length ≤ verifyMax) :
    Kept s fun o b => o = ord ∧ b ∈ restored s ord stale firstBucket := by
  refine h.mono ?_
  rintro o t q i hdue ⟨rfl, hstale⟩
  refine ⟨rfl, mem_filter.2 ⟨hstale, decide_eq_true ?_⟩⟩
  rw [take_of_length_le hlooked]
  -- A row in a deleted second is before the first one the sweep read.
  have hlt : t < firstBucket * 1000 := (Int.ediv_lt_iff_lt_mul (by decide)).1 (hearly _ hstale)
  refine mem_map_of_mem ((mem_insertionSort _).2 ?_)
  exact mem_filter.2 ⟨mem_dueTimes hdue, decide_eq_true hlt⟩

theorem Kept.restore {buckets : List Int} (h : Kept s fun o b => o = ord ∧ b ∈ buckets) :
    Kept (s.write (buckets.map fun b => .put (.active b ord) .empty)) fun _ _ => False := by
  have hops : Marked (buckets.map fun b => .put (.active b ord) .empty) := by
    intro op hop
    obtain ⟨b, -, rfl⟩ := mem_map.1 hop
    refine ⟨fun b' o hk => ?_, nofun⟩
    obtain ⟨rfl, rfl⟩ := Key.active.inj hk
    exact ⟨_, rfl⟩
  intro o t q i hdue
  rcases h.write hops o t q i hdue with hmark | ⟨rfl, hb⟩
  · exact .inl hmark
  · exact .inl (marker_write hops (.inr ⟨.empty, mem_map.2 ⟨_, hb, rfl⟩⟩))

/-! ## The invariant -/

/-- The markers a sweep has deleted and may have to put back. -/
def Sweep.owed : Sweep → Nat → Int → Prop
  | .verifying ord stale _, o, b => o = ord ∧ b ∈ stale
  | .restoring ord buckets, o, b => o = ord ∧ b ∈ buckets
  | _, _, _ => False

/-- Only markers before the first row that was read are deleted. -/
def Sweep.early : Sweep → Prop
  | .reading _ stale firstBucket _ | .deleting _ stale firstBucket
  | .verifying _ stale firstBucket =>
    ∀ b ∈ stale, b < firstBucket
  | _ => True

/-- Every due row has its marker, apart from what the sweep under way owes. -/
structure Inv (s : State) : Prop where
  planned : Planned s.base
  kept : Kept s.base.store s.sweep.owed
  early : s.sweep.early

theorem Inv.boot (rows : List Legacy) (next : Nat) : Inv (boot rows next) where
  planned := planned_idle rfl
  kept := by
    have hempty : Kept (∅ : Store) fun _ _ => False := fun o t q i hdue => absurd rfl hdue
    refine hempty.write (Marked.flatMap fun r _ => ?_)
    unfold Legacy.ops
    split
    · exact Marked.append (.append (.of_aside (by simp [Marked.Aside])) .dueOps) (.counters _)
    · exact Marked.append (.of_aside (by simp [Marked.Aside])) (.counters _)
  early := trivial

/-- The sweep moved, and the store did not. -/
theorem Inv.sweep {s : State} (h : Inv s) (sweep : Sweep) (howed : s.sweep.owed = sweep.owed)
    (hearly : sweep.early) : Inv { s with sweep := sweep } where
  planned := h.planned
  kept := howed ▸ h.kept
  early := hearly

/-- A sweep that ends before it has deleted anything owes nothing. -/
theorem Sweep.owed_of_not_halfway {w : Sweep}
    (h : w.halfway = false) : w.owed = Sweep.idle.owed := by
  cases w with
  | verifying | restoring => cases h
  | _ => rfl

theorem Inv.step {s : State} {e : Event} (h : Inv s) (hthorough : thorough s e = true)
    (hstep : Markers.step s e = some t) : Inv t := by
  obtain ⟨base, sweep⟩ := s
  cases e with
  | delivery =>
    simp only [Markers.step] at hstep
    split_ifs at hstep
    obtain ⟨u, hu, rfl⟩ := Option.map_eq_some_iff.1 hstep
    obtain ⟨hplanned, ops, hops, hstore⟩ := step_marked h.planned hu
    refine ⟨hplanned, ?_, h.early⟩
    rw [hstore]
    exact h.kept.write hops
  | tidy ord buckets now lanes =>
    simp only [Markers.step] at hstep
    split_ifs at hstep with hidle hstale
    · cases hstep
      exact h
    · cases hstep
      obtain rfl : sweep = .idle := hidle.1
      refine h.sweep (.reading ord _ _ lanes) rfl fun b hb => ?_
      simpa using (mem_filter.1 hb).2
  | held =>
    cases sweep with
    | reading ord stale firstBucket =>
      simp only [Markers.step] at hstep
      split_ifs at hstep
      · cases hstep
        exact h.sweep .idle rfl trivial
      · cases hstep
        exact h.sweep (.deleting ord stale firstBucket) rfl h.early
    | _ => cases hstep
  | delete =>
    cases sweep with
    | deleting =>
      simp only [Markers.step] at hstep
      split_ifs at hstep
      · cases hstep
        exact ⟨h.planned, h.kept.delete, h.early⟩
      · cases hstep
        exact h.sweep .idle rfl trivial
    | _ => cases hstep
  | verify =>
    cases sweep with
    | verifying =>
      cases hstep
      exact ⟨h.planned, h.kept.restored h.early (of_decide_eq_true hthorough), trivial⟩
    | _ => cases hstep
  | restore =>
    cases sweep with
    | restoring =>
      cases hstep
      exact ⟨h.planned, h.kept.restore, trivial⟩
    | _ => cases hstep
  | halt =>
    cases hstep
    exact h.sweep .idle (Sweep.owed_of_not_halfway (by simpa [thorough] using hthorough)) trivial
  | restart =>
    cases hstep
    have howed := Sweep.owed_of_not_halfway (by simpa [thorough] using hthorough)
    exact ⟨planned_idle rfl, howed ▸ h.kept, trivial⟩

theorem Inv.run {s : State} {es : List Event} (h : Inv s)
    (hthorough : Along Markers.step (fun s e => thorough s e = true) s es)
    (hrun : exec Markers.step s es = some t) : Inv t :=
  invariant_along (fun _ _ _ hs hP hstep => hs.step hP hstep) h hthorough hrun

/-! ## The claim round finds the tenant -/

end Ankusa.Delivery.Markers
