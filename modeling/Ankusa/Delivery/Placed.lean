import Ankusa.Delivery.Step

set_option autoImplicit false

/-! # Every delivery row is in one place

A node starts with an empty store, or with what the migration of an older one leaves there
(`store/migrate.ex`): of a hook whose sinks were never recorded a pending row, a dead one, or both.
The index keys and the delivery rows belong together in every state reached from there, as long as
two expansions of one hook never wait to be written at the same time and no eviction is written
after its row was revived. Nobody sees to that: the Pipeline reads the sinks that have a row when it
builds an expansion, not when the expansion is written, and the reaper builds its batch before the
Replayer is asked to write it. -/

namespace Ankusa.Delivery

open Deliveries KV List Option Run

/-! ## The start of a node -/

/-- A row of an older store: pending, or dead since a time, for a reason. -/
structure Legacy where
  seq : Nat
  ord : Nat
  size : Nat
  sourceId : String
  id : Option String
  death : Option (Ms × String)

/-- The sink an imported row is stored under. -/
def Legacy.sink (r : Legacy) : Nat := if r.death.isSome then unresolvedDead else unresolvedPending

/-- The row an import writes. -/
def Legacy.row (r : Legacy) : Row :=
  match r.death with
  | none => newRow "" 0 r.size r.sourceId none none
  | some (time, error) =>
    { newRow "" time r.size "" none none with state := .dead, error := some error }

/-- Where an import puts the row. -/
def Legacy.place (r : Legacy) : Place :=
  match r.death with
  | none => .due r.ord 0 r.size .firstAttempt
  | some (time, _) => .dead r.ord time r.sourceId r.id

/-- An imported row as the migrations leave it: its row, its index keys and its counts. -/
def Legacy.ops (r : Legacy) : List Op :=
  match r.death with
  | none =>
    [.put (.delivery r.seq r.sink) (.row r.row)] ++
      dueOps r.ord 0 r.seq r.sink r.size .firstAttempt ++
      Counters.ops [(r.ord, .pending, 1), (r.ord, .bytes, r.size)]
  | some (time, _) =>
    [.put (.delivery r.seq r.sink) (.row r.row),
      .put (.dead time r.seq r.sink) (.owner r.sourceId r.id r.ord),
      .put (.deadByTenant r.ord time r.seq r.sink) .empty] ++
      Counters.ops [(r.ord, .dead, 1), (r.ord, .bytes, r.size), (r.ord, .deadBytes, r.size)]

/-- A node before its first step: nothing is claimed, and the Pipeline has not recovered yet. -/
def boot (rows : List Legacy) (next : Nat) : State where
  store := (∅ : Store).write (rows.flatMap Legacy.ops)
  nextSeq := next
  jobs := []
  buffer := []
  unrecorded := []
  recovered := false
  doing := .idle
  page := []
  evicting := []

/-- At most one pending and one dead row of each hook, all of them older than the next. -/
def bootOk (rows : List Legacy) (next : Nat) : Bool :=
  decide (rows.map fun r => (r.seq, r.sink)).Nodup &&
    rows.all fun r => decide (r.seq < next) && decide (0 < r.ord)

variable {rows : List Legacy} {next q i : Nat} {s : State} {g : Ghost}

theorem bootOk_spec (h : bootOk rows next = true) :
    (rows.map fun r => (r.seq, r.sink)).Nodup ∧ ∀ r ∈ rows, r.seq < next ∧ 0 < r.ord := by
  simpa [bootOk] using h

/-- The move of an import. -/
def Legacy.move (r : Legacy) : Move Cell Slot Obs :=
  rowMove r.seq r.sink none (some (.row r.row)) (some r.place)

theorem Legacy.does (r : Legacy) : index.Does r.ops [r.move] := by
  unfold Legacy.ops Legacy.move Legacy.place
  rcases r.death with _ | ⟨time, error⟩
  · refine Does.counted (does_rowOps ?_ ?_ ?_ ?_) _ <;>
      simp [dueOps, rowOps, placed, Place.contents, cellOf]
  · refine Does.counted (does_rowOps ?_ ?_ ?_ ?_) _ <;> simp [rowOps, placed, Place.contents]

theorem Legacy.lays (r : Legacy) : Lays r.move := by
  unfold Legacy.move Legacy.row Legacy.place
  rcases r.death with _ | ⟨time, error⟩
  · exact .put _ _ _ _ _ ⟨by simp [newRow], fun h => by simp [newRow] at h⟩ fun _ => rfl
  · exact .put _ _ _ _ _ rfl fun h => by cases h

variable {T : Nat → Bool}

theorem Legacy.plainOp (r : Legacy) : ∀ op ∈ r.ops, PlainOp T op := by
  have hlane : r.row.lane = none := by
    unfold Legacy.row
    split
    · rfl
    · rfl
  unfold Legacy.ops
  split
  · refine forall_mem_append.2 ⟨forall_mem_append.2 ⟨?_, plainOp_due⟩, plainOp_counters⟩
    simp [PlainOp, hlane]
  · refine forall_mem_append.2 ⟨?_, plainOp_counters⟩
    simp [PlainOp, hlane]

/-- The cells of a store that holds the imported rows. -/
def bootCells (T : Nat → Bool) (rows : List Legacy) : Map Cell Slot :=
  (∅ : Map Cell Slot).moves (track T (rows.map Legacy.move))

theorem Inv.boot (hok : bootOk rows next = true)
    (hT : ∀ q, next ≤ q → T q = true) : Inv T (boot rows next) ⟨bootCells T rows, []⟩ := by
  obtain ⟨hrows, hold⟩ := bootOk_spec hok
  have hempty : ∀ c : Cell, (∅ : Map Cell Slot).get c = none := fun _ => rfl
  have hgood : Good (∅ : Map Cell Slot) := by
    refine ⟨fun c e he => ?_, fun q i row p l key he => ?_⟩
    all_goals
      rw [hempty] at he
      cases he
  have hdoes : (tracked T).Does (rows.flatMap Legacy.ops) (track T (rows.map Legacy.move)) :=
    does_rows (fun r _ => r.does) (nodup_rows hrows fun r => rfl)
  have hmodels : (tracked T).Models (∅ : Store) (∅ : Map Cell Slot) := fun c k _ => rfl
  have habsent : ∀ q i, (∀ r ∈ rows, r.seq = q → T q = false) →
      (bootCells T rows).get (.row q i) = none := by
    intro q i hnone
    refine (Map.get_unmoved fun hmem => ?_).trans (hempty _)
    obtain ⟨m, hm, hcell⟩ := mem_map.1 hmem
    obtain ⟨hm, htracks⟩ := mem_track.1 hm
    obtain ⟨r, hr, rfl⟩ := mem_map.1 hm
    have hseq : r.seq = q := (Cell.row.inj hcell).1
    have htrue : T r.seq = true := htracks
    rw [hseq, hnone r hr hseq] at htrue
    cases htrue
  have hcells : Good (bootCells T rows) := by
    refine hgood.lays hdoes.nodup fun m hm => ?_
    obtain ⟨r, -, rfl⟩ := mem_map.1 (mem_track.1 hm).1
    exact r.lays
  exact {
    models := hmodels.write hdoes fun m hm => by
      obtain ⟨r, -, rfl⟩ := mem_map.1 (mem_track.1 hm).1
      rfl
    good := hcells
    fresh := fun q i hq => habsent q i fun r hr hseq => by
      have hlt := (hold r hr).1
      have hle : next ≤ q := hq
      omega
    newer := hT
    only := fun q i hq => habsent q i fun _ _ _ => hq
    plain := by
      refine Plain.write ⟨fun q i row hget => ?_, fun o l q i hget => ?_⟩
        (forall_mem_flatMap.2 fun r _ => r.plainOp)
      · cases hget
      · exact absurd rfl hget
    relied := .nil
    jobs := forall_mem_nil _
    results := forall_mem_nil _
    unclaimed := fun _ => ⟨rfl, rfl⟩
    plan := .nil hcells
    marks := forall_mem_nil _
    items := fun _ _ _ hd => nomatch hd }

/-! ## One place -/

/-- Every hook. -/
def every : Nat → Bool := fun _ => true

@[simp] theorem track_every (ms : Moves) : track every ms = ms := track_all ms

theorem tracks_every (c : Cell) : tracks every c = true := by
  cases c <;> rfl

/-- The row an index key belongs to. -/
def indexed : Key → Option (Nat × Nat)
  | .due _ _ q i | .inflight _ q i | .laneMember _ _ q i | .dead _ q i | .deadByTenant _ _ q i =>
    some (q, i)
  | _ => none

theorem Inv.run {t : State} {es : List Event} (h : Inv T s g)
    (hlone : Along Delivery.step (Lone T) s es) (hrun : exec Delivery.step s es = some t) :
    ∃ g', Inv T t g' := by
  refine invariant_along (I := fun s => ∃ g, Inv T s g) (fun s e t hs hlone hstep => ?_)
    ⟨g, h⟩ hlone hrun
  obtain ⟨g, hg⟩ := hs
  exact ⟨g.step T s e, hg.step hlone hstep⟩

end Ankusa.Delivery
