import Ankusa.Delivery.Moves

set_option autoImplicit false

/-! # The index along a run

The invariant of the delivery machine. Beside the store it speaks of a map of the index cells
(`Models`) and of the moves of the batch that is built and not yet written: what the Pipeline keeps
in memory (jobs, outcomes) relies on cells that nobody else touches, and a built batch fits the
cells until it is written. -/

namespace Ankusa.Delivery

open Deliveries KV List Option Map

/-! ## Rows that fit their place -/

/-- A dead row says so and no other does; a due lane head has a head's kind, a member its lane. -/
def Place.fits (row : Row) : Place → Prop
  | .due _ _ _ kind => row.state ≠ .dead ∧ (row.lane.isSome = true → headKind kind = true)
  | .inflight _ _ => row.state ≠ .dead
  | .member _ lane _ => row.state ≠ .dead ∧ row.lane.map Prod.fst = some lane
  | .dead _ _ _ _ => row.state = .dead

/-- A cell holds what belongs there. A stored row that does not decode says nothing. -/
def Slot.ok : Cell → Slot → Prop
  | .row _ _, .row (.row stored) p => p.fits stored
  | .row _ _, .row _ _ => True
  | .head _ _, .head _ _ => True
  | .row _ _, .head _ _ | .head _ _, .row _ _ => False

/-- The cells are sound, each by itself and the heads with their rows. -/
structure Good (A : Map Cell Slot) : Prop where
  slots : ∀ c e, A.get c = some e → e.ok c
  /-- A row of a lane that is due or in flight is the lane's head. -/
  headed : ∀ q i row p l key, A.get (.row q i) = some (.row (.row row) p) → p.live = true →
    row.lane = some (l, key) → A.get (.head p.ord l) = some (.head q i)

section Good

variable {A B : Map Cell Slot} {ms : Moves}

theorem Good.congr (h : Good A) (hsame : ∀ c, B.get c = A.get c) : Good B where
  slots c e he := h.slots c e (hsame c ▸ he)
  headed q i row p l key hrow hlive hlane := by
    rw [hsame] at hrow ⊢
    exact h.headed q i row p l key hrow hlive hlane

theorem Good.row_cases (h : Good A) (q i : Nat) :
    A.get (.row q i) = none ∨ ∃ v p, A.get (.row q i) = some (.row v p) := by
  cases he : A.get (.row q i) with
  | none => exact .inl rfl
  | some e =>
    cases e with
    | row v p => exact .inr ⟨v, p, rfl⟩
    | head => exact absurd (h.slots _ _ he) id

theorem Good.head_cases (h : Good A) (o : Nat) (l : Lane) :
    A.get (.head o l) = none ∨ ∃ q i, A.get (.head o l) = some (.head q i) := by
  cases he : A.get (.head o l) with
  | none => exact .inl rfl
  | some e =>
    cases e with
    | head q i => exact .inr ⟨q, i, rfl⟩
    | row => exact absurd (h.slots _ _ he) id

/-- Moves keep the index good when each leaves a row that fits, a live row of a lane comes with its
    head, and a head is taken only from a row that leaves. -/
theorem Good.moves (h : Good A) (hnodup : (ms.map Move.cell).Nodup)
    (hslots : ∀ m ∈ ms, ∀ e, m.upd (A.get m.cell) = some e → e.ok m.cell)
    (hrow : ∀ m ∈ ms, ∀ q i row p l key, m.cell = .row q i →
      m.upd (A.get m.cell) = some (.row (.row row) p) → p.live = true → row.lane = some (l, key) →
      (A.moves ms).get (.head p.ord l) = some (.head q i))
    (hhead : ∀ m ∈ ms, ∀ o l q i, m.cell = .head o l → A.get (.head o l) = some (.head q i) →
      m.upd (A.get m.cell) = some (.head q i) ∨ .row q i ∈ ms.map Move.cell ∨
      ∀ row p key, A.get (.row q i) = some (.row (.row row) p) → p.live = true →
        row.lane ≠ some (l, key)) : Good (A.moves ms) where
  slots c e he := by
    by_cases hc : c ∈ ms.map Move.cell
    · obtain ⟨m, hm, rfl⟩ := mem_map.1 hc
      rw [get_moves_of_mem hnodup hm] at he
      exact hslots m hm e he
    · rw [get_unmoved hc] at he
      exact h.slots c e he
  headed q i row p l key he hlive hlane := by
    by_cases hc : .row q i ∈ ms.map Move.cell
    · obtain ⟨m, hm, hcell⟩ := mem_map.1 hc
      rw [← hcell, get_moves_of_mem hnodup hm] at he
      exact hrow m hm q i row p l key hcell he hlive hlane
    rw [get_unmoved hc] at he
    have hold := h.headed q i row p l key he hlive hlane
    by_cases hh : .head p.ord l ∈ ms.map Move.cell
    · obtain ⟨m, hm, hcell⟩ := mem_map.1 hh
      rw [← hcell, get_moves_of_mem hnodup hm]
      rcases hhead m hm p.ord l q i hcell hold with hsame | hrow | hgone
      · exact hsame
      · exact absurd hrow hc
      · exact absurd hlane (hgone row p key he hlive)
    · rw [get_unmoved hh]
      exact hold

/-- A row is written that fits its new place and is no live row of a lane, or it goes. -/
inductive Lays : Move Cell Slot Obs → Prop
  | gone (q i : Nat) (src : Option Place) (body : Option Val) : Lays (rowMove q i src body none)
  | put (q i : Nat) (src : Option Place) (row : Row) (p : Place) (hfits : p.fits row)
      (hlane : p.live = true → row.lane = none) : Lays (rowMove q i src (some (.row row)) (some p))

theorem Good.lays (h : Good A) (hnodup : (ms.map Move.cell).Nodup) (hlays : ∀ m ∈ ms, Lays m) :
    Good (A.moves ms) := by
  refine h.moves hnodup (fun m hm e he => ?_) (fun m hm q i row p l key hcell he hlive hlane => ?_)
    fun m hm o l q i hcell => ?_
  · cases hlays m hm with
    | gone => cases he
    | put q i src row p hfits =>
      obtain rfl : Slot.row (.row row) p = e := some.inj he
      exact hfits
  · cases hlays m hm with
    | gone => cases he
    | put q i src row' p' hfits hnone =>
      obtain ⟨hr, rfl⟩ : Val.row row' = .row row ∧ p' = p := by simpa using some.inj he
      obtain rfl : row' = row := by simpa using hr
      rw [hnone hlive] at hlane
      cases hlane
  · cases hlays m hm with
    | gone | put => cases hcell

end Good

/-! ## What a read tells -/

variable {m : Move Cell Slot Obs} {T : Nat → Bool} {k : Key} {p : Place}

theorem mem_of_valueAt {contents : List (Key × Val)} {v : Val}
    (h : valueAt contents k = some v) : (k, v) ∈ contents := by
  obtain ⟨c, hc, rfl⟩ := map_eq_some_iff.1 h
  have hkey : c.1 = k := by simpa using find?_some hc
  exact hkey ▸ mem_of_find?_eq_some hc

section Reads

variable {s : Store} {A : Map Cell Slot} (hm : (tracked T).Models s A) (hg : Good A)
  {q i : Nat}

include hm hg

theorem read_row (hT : T q = true) (hk : cellOf k = some (.row q i)) :
    (A.get (.row q i) = none ∧ s.get k = none) ∨ ∃ v p, A.get (.row q i) = some (.row v p) ∧
      s.get k = if k = .delivery q i then some v else valueAt (p.contents q i) k := by
  have hholds : index.Holds s (.row q i) (A.get (.row q i)) :=
    (Layout.Holds.restrict_iff (show tracks T (.row q i) = true from hT)).1 (hm _)
  have hget := hholds k hk
  rcases hg.row_cases q i with hnone | ⟨v, p, hsome⟩
  · rw [hnone] at hget
    exact .inl ⟨hnone, hget⟩
  · rw [hsome] at hget
    refine .inr ⟨v, p, hsome, hget.trans ?_⟩
    exact (view_row q i v (some p) k).trans (by simp [placed])

variable {v : Val}

section

variable (hT : T q = true)
include hT

theorem read_body (h : s.get (.delivery q i) = some v) :
    ∃ p, A.get (.row q i) = some (.row v p) := by
  rcases read_row hm hg hT (k := .delivery q i) rfl with ⟨-, hnone⟩ | ⟨w, p, hA, hget⟩
  · rw [hnone] at h
    cases h
  · rw [if_pos rfl, h] at hget
    exact ⟨p, some.inj hget ▸ hA⟩

theorem body_of_cell (h : A.get (.row q i) = some (.row v p)) : s.get (.delivery q i) = some v := by
  rcases read_row hm hg hT (k := .delivery q i) rfl with ⟨hnone, -⟩ | ⟨w, p', hA, hget⟩
  · rw [h] at hnone
    cases hnone
  · rw [h] at hA
    obtain ⟨rfl, -⟩ := Slot.row.inj (some.inj hA)
    simpa using hget

theorem read_absent (h : s.get (.delivery q i) = none) : A.get (.row q i) = none := by
  rcases read_row hm hg hT (k := .delivery q i) rfl with ⟨hA, -⟩ | ⟨w, p, -, hget⟩
  · exact hA
  · rw [if_pos rfl, h] at hget
    cases hget

theorem read_index (hk : cellOf k = some (.row q i)) (hne : k ≠ .delivery q i)
    (h : s.get k = some v) :
    ∃ b p, A.get (.row q i) = some (.row b p) ∧ (k, v) ∈ p.contents q i := by
  rcases read_row hm hg hT hk with ⟨-, hnone⟩ | ⟨b, p, hA, hget⟩
  · rw [hnone] at h
    cases h
  · rw [if_neg hne, h] at hget
    exact ⟨b, p, hA, mem_of_valueAt hget.symm⟩

end

variable {o n : Nat} {t : Ms}

/-- The first key of a place says which place it is. -/
theorem read_place {rest : List (Key × Val)} (hT : T q = true)
    (hp : p.contents q i = (k, v) :: rest)
    (h : s.get k = some v) : ∃ b, A.get (.row q i) = some (.row b p) := by
  obtain ⟨hk, hne⟩ := Place.cellOf_contents (c := (k, v)) (p := p) (q := q) (i := i) (by simp [hp])
  obtain ⟨b, p', hA, hmem⟩ := read_index hm hg hT hk hne h
  obtain rfl : p' = p := by
    cases p <;> cases p' <;> grind [Place.contents]
  exact ⟨b, hA⟩

theorem read_due {kind : Kind} (hT : T q = true) (h : s.get (.due o t q i) = some (.due n kind)) :
    ∃ v, A.get (.row q i) = some (.row v (.due o t n kind)) := read_place hm hg hT rfl h

theorem read_inflight (hT : T q = true) (h : s.get (.inflight o q i) = some (.size n)) :
    ∃ v, A.get (.row q i) = some (.row v (.inflight o n)) := read_place hm hg hT rfl h

variable {l : Lane}

theorem read_member (hT : T q = true) (h : s.get (.laneMember o l q i) = some (.size n)) :
    ∃ v, A.get (.row q i) = some (.row v (.member o l n)) := read_place hm hg hT rfl h

theorem read_dead {source : String} {id : Option String} (hT : T q = true)
    (h : s.get (.dead t q i) = some (.owner source id o)) :
    ∃ v, A.get (.row q i) = some (.row v (.dead o t source id)) := read_place hm hg hT rfl h

theorem read_head : (A.get (.head o l) = none ∧ s.get (.laneHead o l) = none) ∨
      ∃ q i, A.get (.head o l) = some (.head q i) ∧ s.get (.laneHead o l) = some (.rowRef q i) := by
  have hholds : index.Holds s (.head o l) (A.get (.head o l)) :=
    (Layout.Holds.restrict_iff (show tracks T (.head o l) = true from rfl)).1 (hm _)
  have hget := hholds (.laneHead o l) rfl
  rcases hg.head_cases o l with hnone | ⟨q, i, hsome⟩
  · rw [hnone] at hget
    exact .inl ⟨hnone, hget⟩
  · rw [hsome] at hget
    refine .inr ⟨q, i, hsome, hget.trans ?_⟩
    show valueAt [(Key.laneHead o l, Val.rowRef q i)] (.laneHead o l) = _
    rw [valueAt_cons, if_pos rfl]

theorem read_head_some {r : Nat × Nat} (h : Lanes.head s o l = some r) :
    A.get (.head o l) = some (.head r.1 r.2) := by
  unfold Lanes.head at h
  rcases read_head hm hg with ⟨-, hnone⟩ | ⟨q, i, hA, hget⟩
  · rw [hnone] at h
    cases h
  · rw [hget] at h
    cases h
    exact hA

theorem read_head_none (h : Lanes.head s o l = none) : A.get (.head o l) = none := by
  unfold Lanes.head at h
  rcases read_head hm hg with ⟨hA, -⟩ | ⟨q, i, -, hget⟩
  · exact hA
  · rw [hget] at h
    cases h

end Reads

/-! ## Hooks that are left out -/

/-- A row of a lane, and a member, belong to a hook that is tracked. -/
structure Plain (T : Nat → Bool) (s : Store) : Prop where
  rows : ∀ q i row, s.get (.delivery q i) = some (.row row) → row.lane ≠ none → T q = true
  members : ∀ o l q i, s.get (.laneMember o l q i) ≠ none → T q = true

/-- The operation writes lane rows of tracked hooks only, and merges only counters. -/
def PlainOp (T : Nat → Bool) : Op → Prop
  | .put (.delivery q _) (.row row) => row.lane ≠ none → T q = true
  | .put (.laneMember _ _ q _) _ => T q = true
  | .merge (.counter _ _) _ => True
  | .merge _ _ => False
  | _ => True

theorem PlainOp.merges {op : Op} (h : PlainOp T op) (hkey : op.key = k)
    (hk : ∀ o f, k ≠ .counter o f) : op.merges = false := by
  cases op with
  | put | delete => rfl
  | merge k' =>
    obtain rfl : k' = k := hkey
    cases k' with
    | counter o f => exact absurd rfl (hk o f)
    | _ => exact absurd h id

theorem Plain.write {s : Store} {ops : List Op} (h : Plain T s)
    (hops : ∀ op ∈ ops, PlainOp T op) : Plain T (s.write ops) where
  rows q i row hget hlane := by
    rcases get_write_eq_some (fun op hop hkey => (hops op hop).merges hkey (by simp))
      hget with hold | hput
    · exact h.rows q i row hold hlane
    · exact hops _ hput hlane
  members o l q i hget := by
    obtain ⟨v, hv⟩ := ne_none_iff_exists'.1 hget
    rcases get_write_eq_some (fun op hop hkey => (hops op hop).merges hkey (by simp)) hv with hold |
      hput
    · exact h.members o l q i (by simp [hold])
    · exact hops _ hput

theorem plainOp_counters {ds : List Counters.Delta} : ∀ op ∈ Counters.ops ds, PlainOp T op :=
  Counters.within (fun _ _ _ => trivial) ds

theorem plainOp_coalesce {ops : List Op} (h : ∀ op ∈ ops, PlainOp T op) :
    ∀ op ∈ coalesce ops, PlainOp T op := within_coalesce h fun _ _ _ => trivial

/-! ## What is kept in memory -/

/-- What a row of a lane relies on beside itself: it is the lane's head. -/
def laneRelies (o : Nat) (row : Option Row) (r : Nat × Nat) : List (Cell × Obs) :=
  match row.bind Row.lane with
  | some (l, _) => [(.head o l, .head r.1 r.2)]
  | none => []

/-- What a claimed job takes for granted: its row in flight, and its lane's head. -/
def Job.relies (j : Job) : List (Cell × Obs) :=
  (.row j.seq j.sink, .row (.inflight j.ord j.size)) ::
    laneRelies j.ord (some j.row) (j.seq, j.sink)

/-- The cells an outcome relies on until it is written. -/
def Result.relies : Result → List (Cell × Obs)
  | .delivered j | .retry j _ _ | .dead j _ _ _ _ => j.relies
  | .orphan ord seq sink size row =>
    (.row seq sink, .row (.inflight ord size)) :: laneRelies ord row (seq, sink)
  | .expand ord seq sink size _ sinks existing _ =>
    (.row seq sink, .row (.inflight ord size)) ::
      (sinks.zipIdx.filter fun p => p.2 ∉ existing).map fun p => (.row seq p.2, .none)

/-- A row being delivered is not dead. -/
def Job.Ok (T : Nat → Bool) (j : Job) : Prop := T j.seq = true → j.row.state ≠ .dead

/-- The sinks of an expansion are no imported ones. -/
def Result.Ok (T : Nat → Bool) : Result → Prop
  | .delivered j | .retry j _ _ | .dead j _ _ _ _ => j.Ok T
  | .orphan _ _ _ _ _ => True
  | .expand _ _ _ _ _ sinks _ _ => sinks.length ≤ unresolvedDead

/-- The outcomes of the batch that is being written. -/
def State.flushing (s : State) : List Result :=
  match s.doing with
  | .writing _ (.flushed results) => results
  | _ => []

/-- What is in memory beside them. -/
def State.kept (s : State) : List (Cell × Obs) :=
  s.jobs.flatMap Job.relies ++ (s.buffer ++ s.unrecorded.flatten).flatMap Result.relies

/-- What the Pipeline takes for granted holds, and no two of its parts are about one cell. -/
structure Relied (T : Nat → Bool) (A : Map Cell Slot) (hs : List (Cell × Obs)) : Prop where
  nodup : ((hs.map Prod.fst).filter (tracks T)).Nodup
  holds : ∀ c ∈ hs, tracks T c.1 = true → obs (A.get c.1) = c.2
  lanes : ∀ o l q i, (.head o l, .head q i) ∈ hs → T q = true

/-! ## A batch that is built -/

/-- A batch of the Pipeline moves no dead row and no row that the writer could be creating. -/
def Old (next : Nat) (m : Move Cell Slot Obs) : Prop :=
  match m.cell with
  | .head _ _ => True
  | .row q i =>
    (m.src = .none → q < next ∧ unresolved i = false) ∧ ∀ o t src id,
    m.src ≠ .row (.dead o t src id)

/-- A move of a row or of a lane head. -/
inductive Shaped : Move Cell Slot Obs → Prop
  | row (q i : Nat) (src : Option Place) (body : Option Val) (dst : Option Place) :
    Shaped (rowMove q i src body dst)
  | head (o : Nat) (l : Lane) (src dst : Option (Nat × Nat)) : Shaped (headMove o l src dst)

/-- The batch makes the moves, which fit the cells, keep them sound and touch nothing in `kept`. -/
structure Ready (T : Nat → Bool) (next : Nat) (kept : List (Cell × Obs)) (A : Map Cell Slot)
    (ops : List Op) (ms : Moves) : Prop where
  does : (tracked T).Does ops ms
  fits : index.Fits A ms
  old : ∀ m ∈ ms, Old next m
  shaped : ∀ m ∈ ms, Shaped m
  tracked : ∀ m ∈ ms, tracks T m.cell = true
  apart : ∀ m ∈ ms, ∀ c ∈ kept, m.cell ≠ c.1
  good : Good (A.moves ms)
  plain : ∀ op ∈ ops, PlainOp T op

/-- The operations still to be written that move anything: markers are written before the rest of a
    sweep. -/
def Doing.pending : Doing → List Op
  | .idle | .clearing _ | .lettering _ _ => []
  | .verifying _ _ rest => rest
  | .writing _ (.settle _ _ rest) | .writing _ (.settled rest) => rest
  | .writing ops _ => ops

/-- The markers written before it. -/
def Doing.marks : Doing → List Op
  | .writing ops (.settle _ _ _) | .writing ops (.settled _) => ops
  | _ => []

/-- The operation puts or deletes a lane marker. -/
def Marks (op : Op) : Prop := (∃ o l, op.key = .laneMarker o l) ∧ op.merges = false

/-- A row of a claim round as it was read. -/
structure Item.Read (T : Nat → Bool) (A : Map Cell Slot) (it : Item) : Prop where
  claimed : T it.due.seq = true → obs (A.get (.row it.due.seq it.due.sink)) =
    .row (.due it.due.ord it.due.time it.due.size it.due.kind)
  alive : T it.due.seq = true → ∀ row, it.row = .row row → row.state ≠ .dead
  lane : ∀ row l key, it.row = .row row → row.lane = some (l, key) →
    T it.due.seq = true ∧ A.get (.head it.due.ord l) = some (.head it.due.seq it.due.sink)
  ok : it.ok = true

/-- The cells of the store, and the moves of the batch to be written. -/
structure Ghost where
  cells : Map Cell Slot
  plan : Moves

/-- The store is laid out as the cells say, and the Pipeline's view of them is right. -/
structure Inv (T : Nat → Bool) (s : State) (g : Ghost) : Prop where
  models : (tracked T).Models s.store g.cells
  good : Good g.cells
  /-- The writer's next hooks have no row yet. -/
  fresh : ∀ q i, s.nextSeq ≤ q → g.cells.get (.row q i) = none
  newer : ∀ q, s.nextSeq ≤ q → T q = true
  only : ∀ q i, T q = false → g.cells.get (.row q i) = none
  plain : Plain T s.store
  relied : Relied T g.cells (s.kept ++ s.flushing.flatMap Result.relies)
  jobs : ∀ j ∈ s.jobs, j.Ok T
  results : ∀ r ∈ s.buffer ++ s.unrecorded.flatten ++ s.flushing, r.Ok T
  /-- Before the claims of an earlier life are recovered, nothing is claimed. -/
  unclaimed : s.recovered = false →
    s.jobs = [] ∧ s.buffer ++ s.unrecorded.flatten ++ s.flushing = []
  plan : Ready T s.nextSeq s.kept g.cells s.doing.pending g.plan
  marks : ∀ op ∈ s.doing.marks, Marks op
  items : ∀ ops now items, s.doing = .writing ops (.claimed now items) → s.recovered = true ∧
    (items.map fun it => (it.due.seq, it.due.sink)).Nodup ∧ (∀ it ∈ items, it.Read T g.cells) ∧
    g.plan = track T (items.map fun it => claimMove it.due)

/-! ## Cells that others leave alone -/

/-- Every cell relied on is a claimed row, the head that names one, or an absent row of the same
    hook. -/
def Held (hs : List (Cell × Obs)) : Prop :=
  ∀ c ∈ hs, (∃ q i o n, c = (.row q i, .row (.inflight o n))) ∨
    (∃ o l q i n, c = (.head o l, .head q i) ∧ (.row q i, .row (.inflight o n)) ∈ hs) ∨
    ∃ q i i' o n, c = (.row q i, .none) ∧ (.row q i', .row (.inflight o n)) ∈ hs

theorem Held.append {hs hs' : List (Cell × Obs)} (h : Held hs) (h' : Held hs') :
    Held (hs ++ hs') := by
  refine forall_mem_append.2 ⟨fun c hc => (h c hc).imp_right (Or.imp ?_ ?_),
    fun c hc => (h' c hc).imp_right (Or.imp ?_ ?_)⟩
  all_goals
    rintro ⟨a, b, c, d, e, he, hmem⟩
    exact ⟨a, b, c, d, e, he, by simp [hmem]⟩

theorem Held.flatMap {α : Type} {xs : List α} {f : α → List (Cell × Obs)}
    (h : ∀ x ∈ xs, Held (f x)) : Held (xs.flatMap f) := by
  induction xs with
  | nil => exact forall_mem_nil _
  | cons x xs ih =>
    obtain ⟨hx, hxs⟩ := forall_mem_cons.1 h
    rw [flatMap_cons]
    exact hx.append (ih hxs)

theorem held_lane (o : Nat) (row : Option Row) (r : Nat × Nat) (n : Nat) :
    Held ((.row r.1 r.2, .row (.inflight o n)) :: laneRelies o row r) := by
  intro c hc
  rcases mem_cons.1 hc with rfl | hc
  · exact .inl ⟨_, _, _, _, rfl⟩
  · unfold laneRelies at hc
    split at hc
    · obtain rfl := mem_singleton.1 hc
      exact .inr (.inl ⟨_, _, _, _, n, rfl, mem_cons_self⟩)
    · cases hc

theorem Job.held (j : Job) : Held j.relies := held_lane j.ord (some j.row) (j.seq, j.sink) j.size

theorem Result.held (r : Result) : Held r.relies := by
  cases r with
  | delivered j | retry j | dead j time error class? owner => exact j.held
  | orphan ord seq sink size row => exact held_lane ord row (seq, sink) size
  | expand =>
    intro c hc
    rcases mem_cons.1 hc with rfl | hc
    · exact .inl ⟨_, _, _, _, rfl⟩
    · obtain ⟨p, -, rfl⟩ := mem_map.1 hc
      exact .inr (.inr ⟨_, _, _, _, _, rfl, mem_cons_self⟩)

theorem State.held (s : State) : Held (s.kept ++ s.flushing.flatMap Result.relies) :=
  (Held.append (.flatMap fun j _ => j.held) (.flatMap fun r _ => r.held)).append
    (.flatMap fun r _ => r.held)

section Relied

variable {A : Map Cell Slot} {hs hs' : List (Cell × Obs)} {ms : Moves}

theorem Relied.perm (h : Relied T A hs) (hp : hs.Perm hs') : Relied T A hs' where
  nodup := ((hp.map _).filter _).nodup_iff.1 h.nodup
  holds c hc := h.holds c (hp.mem_iff.2 hc)
  lanes o l q i hc := h.lanes o l q i (hp.mem_iff.2 hc)

theorem Relied.nil : Relied T A [] where
  nodup := nodup_nil
  holds _ hc := absurd hc not_mem_nil
  lanes _ _ _ _ hc := absurd hc not_mem_nil

theorem Relied.left (h : Relied T A (hs ++ hs')) : Relied T A hs where
  nodup := by
    have hnodup := h.nodup
    rw [map_append, filter_append] at hnodup
    exact (nodup_append.1 hnodup).1
  holds c hc := h.holds c (mem_append_left _ hc)
  lanes o l q i hc := h.lanes o l q i (mem_append_left _ hc)

theorem Relied.right (h : Relied T A (hs ++ hs')) : Relied T A hs' :=
  (h.perm perm_append_comm).left

theorem Relied.moves (h : Relied T A hs)
    (hapart : ∀ c ∈ hs, tracks T c.1 = true → c.1 ∉ ms.map Move.cell) : Relied T (A.moves ms) hs :=
  { h with
    holds c hc hT := by
      rw [get_unmoved (hapart c hc hT)]
      exact h.holds c hc hT }

/-- The two parts of a list that is relied on have no cell in common. -/
theorem Relied.apart (h : Relied T A (hs ++ hs')) {c c' : Cell × Obs} (hc : c ∈ hs) (hc' : c' ∈ hs')
    (hT : tracks T c.1 = true) : c.1 ≠ c'.1 := by
  intro he
  have hnodup := h.nodup
  rw [map_append, filter_append] at hnodup
  refine (nodup_append.1 hnodup).2.2 c.1 ?_ c'.1 ?_ he
  · exact mem_filter.2 ⟨mem_map_of_mem hc, hT⟩
  · exact mem_filter.2 ⟨mem_map_of_mem hc', he ▸ hT⟩

end Relied

/-! ## Batches of others -/

/-- A row that the writer creates, or a dead row. -/
def Far (next next' : Nat) (m : Move Cell Slot Obs) : Prop :=
  ∃ q i, m.cell = .row q i ∧ ((m.src = .none ∧ next ≤ q ∧ q < next') ∨
    ∃ o t src id, m.src = .row (.dead o t src id))

section Far

variable {next next' : Nat} {A : Map Cell Slot} {ms : Moves} (hfits : index.Fits A ms)
  (hfar : ∀ m ∈ ms, Far next next' m)

include hfar in
theorem Far.not_mem_head (o : Nat) (l : Lane) : .head o l ∉ ms.map Move.cell := by
  intro hmem
  obtain ⟨m, hm, hcell⟩ := mem_map.1 hmem
  obtain ⟨q, i, hrow, -⟩ := hfar m hm
  rw [hrow] at hcell
  cases hcell

include hfits hfar

variable {q i : Nat}

theorem Far.source (hmem : .row q i ∈ ms.map Move.cell) :
    (obs (A.get (.row q i)) = .none ∧ next ≤ q) ∨
    ∃ o t src id, obs (A.get (.row q i)) = .row (.dead o t src id) := by
  obtain ⟨m, hm, hcell⟩ := mem_map.1 hmem
  have hsrc : obs (A.get m.cell) = m.src := hfits m hm
  rw [hcell] at hsrc
  obtain ⟨q', i', hrow, ⟨hnone, hle, -⟩ | ⟨o, t, src, id, hdead⟩⟩ := hfar m hm
  · obtain rfl : q' = q := (Cell.row.inj (hrow.symm.trans hcell)).1
    exact .inl ⟨hsrc.trans hnone, hle⟩
  · exact .inr ⟨o, t, src, id, hsrc.trans hdead⟩

theorem Far.not_mem (hobs : obs (A.get (.row q i)) = .row p)
    (hp : ∀ o t src id, p ≠ .dead o t src id) : .row q i ∉ ms.map Move.cell := by
  intro hmem
  rcases Far.source hfits hfar hmem with ⟨hnone, -⟩ | ⟨o, t, src, id, hdead⟩
  · cases hobs.symm.trans hnone
  · exact hp o t src id (Obs.row.inj (hobs.symm.trans hdead))

theorem Far.not_mem_absent (hobs : obs (A.get (.row q i)) = .none) (hq : q < next) :
    .row q i ∉ ms.map Move.cell := by
  intro hmem
  rcases Far.source hfits hfar hmem with ⟨-, hle⟩ | ⟨o, t, src, id, hdead⟩
  · omega
  · cases hobs.symm.trans hdead

end Far

theorem Old.mono {next next' : Nat} (h : Old next m) (hle : next ≤ next') : Old next' m := by
  unfold Old at h ⊢
  cases hc : m.cell with
  | head => trivial
  | row =>
    rw [hc] at h
    exact ⟨fun hsrc => ⟨lt_of_lt_of_le (h.1 hsrc).1 hle, (h.1 hsrc).2⟩, h.2⟩

variable {kept : List (Cell × Obs)}

/-- A batch that is built stays ready while others write. -/
theorem Ready.outside {next next' : Nat}
    {A : Map Cell Slot} {ops : List Op} {ms ms' : Moves} (h : Ready T next kept A ops ms)
    (hnodup : (ms'.map Move.cell).Nodup) (hfits : index.Fits A ms')
    (hlays : ∀ m ∈ ms', Lays m) (hfar : ∀ m ∈ ms', Far next next' m) (hle : next ≤ next') :
    Ready T next' kept (A.moves ms') ops ms := by
  have hdis : ∀ m ∈ ms, m.cell ∉ ms'.map Move.cell := by
    intro m hm hmem
    have hsrc : obs (A.get m.cell) = m.src := h.fits m hm
    have hold := h.old m hm
    unfold Old at hold
    cases hc : m.cell with
    | head o l =>
      rw [hc] at hmem
      exact Far.not_mem_head hfar o l hmem
    | row q i =>
      rw [hc] at hold hmem hsrc
      cases hobs : obs (A.get (.row q i)) with
      | none => exact Far.not_mem_absent hfits hfar hobs (hold.1 (hsrc.symm.trans hobs)).1 hmem
      | row =>
        refine Far.not_mem hfits hfar hobs (fun o t src id hp => ?_) hmem
        exact hold.2 o t src id (hsrc.symm.trans (hp ▸ hobs))
      | head q' i' =>
        obtain ⟨m', hm', hcell⟩ := mem_map.1 hmem
        have hsrc' : obs (A.get m'.cell) = m'.src := hfits m' hm'
        rw [hcell, hobs] at hsrc'
        obtain ⟨q', i', -, ⟨hnone, -⟩ | ⟨o, t, src, id, hdead⟩⟩ := hfar m' hm'
        · rw [hnone] at hsrc'
          cases hsrc'
        · rw [hdead] at hsrc'
          cases hsrc'
  exact { h with
    fits := h.fits.moves hdis
    old := fun m hm => (h.old m hm).mono hle
    good := (h.good.lays hnodup hlays).congr fun c =>
      (get_moves_comm h.does.nodup hnodup hdis c).symm }

theorem Inv.only_moves {s : State} {g : Ghost} {ms : Moves} (h : Inv T s g)
    (htracked : ∀ m ∈ ms, tracks T m.cell = true) (q i : Nat) (hT : T q = false) :
    (g.cells.moves ms).get (.row q i) = none := by
  rw [get_unmoved fun hmem => ?_, h.only q i hT]
  obtain ⟨m, hm, hcell⟩ := mem_map.1 hmem
  have htrue := htracked m hm
  rw [hcell] at htrue
  exact absurd htrue (by simp [tracks, hT])

/-- A step of the writer, of a replay job or of a reaper. -/
theorem Inv.outside {s : State} {g : Ghost} {ops : List Op} {ms : Moves} {next : Nat}
    (h : Inv T s g) (hdoes : (tracked T).Does ops ms) (hfits : index.Fits g.cells ms)
    (htracked : ∀ m ∈ ms, tracks T m.cell = true) (hlays : ∀ m ∈ ms, Lays m)
    (hfar : ∀ m ∈ ms, Far s.nextSeq next m)
    (hplain : ∀ op ∈ ops, PlainOp T op) (hle : s.nextSeq ≤ next) :
    Inv T { s with store := s.store.write ops, nextSeq := next }
    { g with cells := g.cells.moves ms } where
  models := h.models.write hdoes hfits
  good := h.good.lays hdoes.nodup hlays
  fresh q i hq := by
    have hq : next ≤ q := hq
    have hnone := h.fresh q i (le_trans hle hq)
    by_cases hmem : .row q i ∈ ms.map Move.cell
    · obtain ⟨m, hm, hcell⟩ := mem_map.1 hmem
      obtain ⟨q', i', hrow, ⟨-, -, hlt⟩ | ⟨o, t, src, id, hdead⟩⟩ := hfar m hm
      · obtain rfl : q' = q := (Cell.row.inj (hrow.symm.trans hcell)).1
        omega
      · have hsrc : obs (g.cells.get m.cell) = m.src := hfits m hm
        rw [hcell, hnone, hdead] at hsrc
        cases hsrc
    · show (g.cells.moves ms).get (.row q i) = none
      rw [get_unmoved hmem, hnone]
  newer q hq := h.newer q (le_trans hle hq)
  only := h.only_moves htracked
  plain := h.plain.write hplain
  relied := by
    refine h.relied.moves fun c hc hT => ?_
    have hobs := h.relied.holds c hc hT
    rcases s.held c hc with ⟨q, i, o, n, rfl⟩ | ⟨o, l, q, i, n, rfl, -⟩ |
      ⟨q, i, i', o, n, rfl, hrow⟩
    · exact Far.not_mem hfits hfar hobs (by simp)
    · exact Far.not_mem_head hfar o l
    · refine Far.not_mem_absent hfits hfar hobs (not_le.1 fun hle => ?_)
      have hclaimed := h.relied.holds _ hrow hT
      rw [show (Cell.row q i', Obs.row (Place.inflight o n)).1 = Cell.row q i' from rfl,
        h.fresh q i' hle] at hclaimed
      cases hclaimed
  jobs := h.jobs
  results := h.results
  unclaimed := h.unclaimed
  plan := h.plan.outside hdoes.nodup hfits hlays hfar hle
  marks := h.marks
  items ops' now items hdoing := by
    obtain ⟨hrec, hnodup, hread, hplan⟩ := h.items ops' now items hdoing
    refine ⟨hrec, hnodup, fun it hit => ?_, hplan⟩
    have hr := hread it hit
    exact { hr with
      claimed := fun hT => by
        rw [get_unmoved (Far.not_mem hfits hfar (hr.claimed hT) (by simp))]
        exact hr.claimed hT
      lane := fun row l key hrow hlane => by
        obtain ⟨hT, hhead⟩ := hr.lane row l key hrow hlane
        refine ⟨hT, ?_⟩
        rw [get_unmoved (Far.not_mem_head hfar _ _)]
        exact hhead }

/-! ## Stored rows that cannot be read any more -/

/-- The same cells, but some stored rows do not decode. -/
def Blurs (B A : Map Cell Slot) : Prop :=
  ∀ c, B.get c = A.get c ∨ ∃ v p bin, A.get c = some (.row v p) ∧ B.get c = some (.row (.raw bin) p)

section Blurs

variable {A B : Map Cell Slot}

theorem Blurs.obs_eq (h : Blurs B A) (c : Cell) : obs (B.get c) = obs (A.get c) := by
  rcases h c with he | ⟨v, p, bin, hA, hB⟩
  · rw [he]
  · rw [hA, hB]
    rfl

theorem Blurs.good (h : Blurs B A) (hg : Good A) : Good B where
  slots c e he := by
    rcases h c with hsame | ⟨v, p, bin, hA, hB⟩
    · exact hg.slots c e (hsame ▸ he)
    · rw [hB] at he
      cases he
      cases c with
      | row => trivial
      | head => exact absurd (hg.slots _ _ hA) id
  headed q i row p l key hrow hlive hlane := by
    rcases h (.row q i) with hsame | ⟨v, p', bin, -, hB⟩
    · rw [hsame] at hrow
      have hhead := hg.headed q i row p l key hrow hlive hlane
      rcases h (.head p.ord l) with hsame | ⟨v, p', bin, hA, -⟩
      · rw [hsame, hhead]
      · rw [hhead] at hA
        cases hA
    · rw [hB] at hrow
      cases hrow

variable {ms : Moves}

theorem Blurs.moves (h : Blurs B A) (hnodup : (ms.map Move.cell).Nodup)
    (hshaped : ∀ m ∈ ms, Shaped m) : Blurs (B.moves ms) (A.moves ms) := by
  intro c
  by_cases hc : c ∈ ms.map Move.cell
  · obtain ⟨m, hm, rfl⟩ := mem_map.1 hc
    rw [get_moves_of_mem hnodup hm, get_moves_of_mem hnodup hm]
    rcases h m.cell with hsame | ⟨v, p, bin, hA, hB⟩
    · rw [hsame]
      exact .inl rfl
    rw [hA, hB]
    cases hshaped m hm with
    | head => exact .inl rfl
    | row q i src body dst =>
      cases dst with
      | none => exact .inl rfl
      | some p' =>
        cases body with
        | none => exact .inr ⟨v, p', bin, rfl, rfl⟩
        | some => exact .inl rfl
  · rw [get_unmoved hc, get_unmoved hc]
    exact h c

theorem Ready.blurs {next : Nat} {ops : List Op}
    (hr : Ready T next kept A ops ms) (h : Blurs B A) : Ready T next kept B ops ms :=
  { hr with
    fits m hm := (h.obs_eq m.cell).trans (hr.fits m hm)
    good := (h.moves hr.does.nodup hr.shaped).good hr.good }

end Blurs

theorem Inv.blurs {s : State} {g : Ghost} {store : Store} {B : Map Cell Slot}
    (h : Inv T s g) (hB : Blurs B g.cells) (hmodels : (tracked T).Models store B)
    (hplain : Plain T store) : Inv T { s with store } { g with cells := B } :=
  { h with
    models := hmodels
    good := hB.good h.good
    fresh q i hq := by
      rcases hB (.row q i) with hsame | ⟨v, p, bin, hA, -⟩
      · exact hsame.trans (h.fresh q i hq)
      · rw [h.fresh q i hq] at hA
        cases hA
    only q i hT := by
      rcases hB (.row q i) with hsame | ⟨v, p, bin, hA, -⟩
      · exact hsame.trans (h.only q i hT)
      · rw [h.only q i hT] at hA
        cases hA
    plain := hplain
    relied := { h.relied with holds :=
      fun c hc hT => (hB.obs_eq c.1).trans (h.relied.holds c hc hT) }
    plan := h.plan.blurs hB
    items ops now items hdoing := by
      obtain ⟨hrec, hnodup, hread, hplan⟩ := h.items ops now items hdoing
      refine ⟨hrec, hnodup, fun it hit => ?_, hplan⟩
      have hr := hread it hit
      exact { hr with
        claimed := fun hT => (hB.obs_eq _).trans (hr.claimed hT)
        lane := fun row l key hrow hlane => by
          obtain ⟨hT, hhead⟩ := hr.lane row l key hrow hlane
          refine ⟨hT, ?_⟩
          rcases hB (.head it.due.ord l) with hsame | ⟨v, p, bin, hA, -⟩
          · exact hsame.trans hhead
          · rw [hhead] at hA
            cases hA } }

/-- The cells when a stored row is damaged. -/
def damaged (T : Nat → Bool) (A : Map Cell Slot) (q i : Nat) (bin : Bin) : Map Cell Slot :=
  match A.get (.row q i) with
  | some (.row _ p) => A.moves (track T [rowMove q i (some p) (some (.raw bin)) (some p)])
  | _ => A

theorem Inv.damage {s : State} {g : Ghost} {q i : Nat} (h : Inv T s g) (bin : Bin)
    (hrow : (s.store.get (.delivery q i)).isSome = true) :
    Blurs (damaged T g.cells q i bin) g.cells ∧
      Inv T { s with store := s.store.write [.put (.delivery q i) (.raw bin)] }
        { g with cells := damaged T g.cells q i bin } := by
  have hplain : Plain T (s.store.write [.put (.delivery q i) (.raw bin)]) := by
    exact h.plain.write (forall_mem_singleton.2 trivial)
  by_cases hT : T q = true
  · obtain ⟨v, hv⟩ := isSome_iff_exists.1 hrow
    obtain ⟨p, hp⟩ := read_body h.models h.good hT hv
    have hcells : damaged T g.cells q i bin =
        g.cells.moves [rowMove q i (some p) (some (.raw bin)) (some p)] := by
      unfold damaged
      rw [hp]
      simp [track, tracks, hT]
    have hB : Blurs (damaged T g.cells q i bin) g.cells := by
      intro c
      rw [hcells]
      by_cases hc : c = .row q i
      · subst hc
        refine .inr ⟨v, p, bin, hp, ?_⟩
        simp [rowMove]
      · refine .inl (get_unmoved ?_)
        simpa using hc
    refine ⟨hB, h.blurs hB ?_ hplain⟩
    rw [hcells]
    have hdoes := does_tracked (T := T) (does_body q i p (.raw bin))
    rw [show track T [rowMove q i (some p) (some (.raw bin)) (some p)] =
      [rowMove q i (some p) (some (.raw bin)) (some p)] by simp [track, tracks, hT]] at hdoes
    refine h.models.write hdoes (forall_mem_singleton.2 ?_)
    show obs (g.cells.get (.row q i)) = _
    rw [hp]
    rfl
  · have hT : T q = false := Bool.eq_false_iff.2 hT
    have hcells : damaged T g.cells q i bin = g.cells := by
      unfold damaged
      split
      · simp [track, tracks, hT]
      · rfl
    have hB : Blurs (damaged T g.cells q i bin) g.cells := fun c => .inl (by rw [hcells])
    refine ⟨hB, h.blurs hB ?_ hplain⟩
    rw [hcells]
    have hdoes : (tracked T).Does [.put (.delivery q i) (.raw bin)] [] := by
      exact does_untracked hT (forall_mem_singleton.2 fun c hc => ⟨i, (some.inj hc).symm⟩)
    exact h.models.write hdoes (forall_mem_nil _)

/-! ## Writing a batch -/

/-- A batch that moves nothing is ready. -/
theorem Ready.none {next : Nat} {A : Map Cell Slot} {ops : List Op} (hgood : Good A)
    (hdoes : (Delivery.tracked T).Does ops []) (hplain : ∀ op ∈ ops, PlainOp T op) :
    Ready T next kept A ops [] where
  does := hdoes
  fits _ hm := absurd hm not_mem_nil
  old _ hm := absurd hm not_mem_nil
  shaped _ hm := absurd hm not_mem_nil
  tracked _ hm := absurd hm not_mem_nil
  apart _ hm := absurd hm not_mem_nil
  good := hgood
  plain := hplain

theorem Ready.nil {next : Nat} {A : Map Cell Slot} (h : Good A) : Ready T next kept A [] [] :=
  .none h .nil (forall_mem_nil _)

open State

section Write

variable {s : State} {g : Ghost} {ops : List Op} {next : After}

theorem Inv.plan_fresh {q i : Nat} (h : Inv T s g) (hm : m ∈ g.plan)
    (hcell : m.cell = .row q i) : q < s.nextSeq := by
  refine not_le.1 fun hle => ?_
  have hsrc : obs (g.cells.get m.cell) = m.src := h.plan.fits m hm
  have hold := h.plan.old m hm
  unfold Old at hold
  rw [hcell] at hold hsrc
  rw [h.fresh q i hle] at hsrc
  have hlt := (hold.1 hsrc.symm).1
  omega

/-- The cells after the batch that is built. -/
theorem Inv.fresh_moves (h : Inv T s g) (q i : Nat) (hq : s.nextSeq ≤ q) :
    (g.cells.moves g.plan).get (.row q i) = none := by
  rw [get_unmoved fun hmem => ?_, h.fresh q i hq]
  obtain ⟨m, hm, hcell⟩ := mem_map.1 hmem
  exact absurd (h.plan_fresh hm hcell) (not_lt.2 hq)

theorem Inv.relied_kept (h : Inv T s g) : Relied T (g.cells.moves g.plan) s.kept := by
  refine h.relied.left.moves fun c hc _ hmem => ?_
  obtain ⟨m, hm, hcell⟩ := mem_map.1 hmem
  exact h.plan.apart m hm c hc hcell

/-- Nothing is in the making. -/
def Doing.rests (doing : Doing) : Prop :=
  doing = .idle ∨ (∃ o, doing = .clearing o) ∨ ∃ src members, doing = .lettering src members

variable {doing : Doing}

theorem Doing.rests.spec (h : doing.rests) :
    doing.pending = [] ∧ doing.marks = [] ∧ ∀ ops next, doing ≠ .writing ops next := by
  rcases h with rfl | ⟨o, rfl⟩ | ⟨src, members, rfl⟩
  all_goals exact ⟨rfl, rfl, nofun⟩

theorem State.flushing_eq {d : Doing} (h : s.doing = d) :
    s.flushing = flushing { s with doing := d } := by
  rw [← h]

theorem State.flushing_eq_nil (h : ∀ ops results, s.doing ≠ .writing ops (.flushed results)) :
    s.flushing = [] := by
  unfold flushing
  split
  · next ops results hd => exact absurd hd (h ops results)
  · rfl

theorem State.flushing_of_rests (h : s.doing.rests) : s.flushing = [] := by
  rcases h with hd | ⟨o, hd⟩ | ⟨src, members, hd⟩
  all_goals exact flushing_eq hd

theorem Inv.written (h : Inv T s g) (hpending : s.doing.pending = ops)
    {recovered : Bool} (hrests : doing.rests) (hrec : recovered = false → s.recovered = false) :
    Inv T { s with store := s.store.write ops, recovered, doing } ⟨g.cells.moves g.plan, []⟩ := by
  have hflushing : flushing { s with store := s.store.write ops, recovered, doing } = [] :=
    flushing_of_rests hrests
  have hplan := h.plan
  rw [hpending] at hplan
  exact { h with
    models := h.models.write hplan.does hplan.fits
    good := hplan.good
    fresh := h.fresh_moves
    only := h.only_moves hplan.tracked
    plain := h.plain.write hplan.plain
    relied := by
      rw [hflushing, flatMap_nil, append_nil]
      exact h.relied_kept
    results := fun r hr => by
      rw [hflushing, append_nil] at hr
      exact h.results r (mem_append_left _ hr)
    unclaimed := fun hr => by
      obtain ⟨hjobs, hresults⟩ := h.unclaimed (hrec hr)
      rw [hflushing, append_nil]
      exact ⟨hjobs, (append_eq_nil_iff.1 hresults).1⟩
    plan := by
      rw [show Doing.pending doing = [] from hrests.spec.1]
      exact .nil hplan.good
    marks := fun op hop => by
      rw [show Doing.marks doing = [] from hrests.spec.2.1] at hop
      cases hop
    items := fun ops' now items hd => absurd hd (hrests.spec.2.2 ops' _) }

theorem does_marks (hops : ∀ op ∈ ops, Marks op) : (tracked T).Does ops [] := by
  refine does_tracked_none fun op hop => ?_
  obtain ⟨⟨o, l, hkey⟩, -⟩ := hops op hop
  rw [hkey]
  rfl

theorem plainOp_marks (hops : ∀ op ∈ ops, Marks op) : ∀ op ∈ ops, PlainOp T op := by
  intro op hop
  obtain ⟨⟨o, l, hkey⟩, hm⟩ := hops op hop
  cases op with
  | put k =>
    obtain rfl : k = .laneMarker o l := hkey
    trivial
  | delete => trivial
  | merge => cases hm

/-- Markers are written: the rest of the sweep is still to come. -/
theorem Inv.marked (h : Inv T s g) (hops : ∀ op ∈ ops, Marks op) (hflushing : s.flushing = [])
    (hdoing : (∃ o lanes rest, doing = .verifying o lanes rest) ∨
      ∃ rest, doing = .writing rest .nothing)
    (hplan : Ready T s.nextSeq s.kept g.cells doing.pending g.plan) :
    Inv T { s with store := s.store.write ops, doing } g := by
  have hdoing' : flushing { s with store := s.store.write ops, doing } = [] ∧
      doing.marks = [] ∧ ∀ ops now items, doing ≠ .writing ops (.claimed now items) := by
    rcases hdoing with ⟨o, lanes, rest, rfl⟩ | ⟨rest, rfl⟩
    all_goals exact ⟨rfl, rfl, nofun⟩
  exact { h with
    models := h.models.write (does_marks hops) (forall_mem_nil _)
    plain := h.plain.write (plainOp_marks hops)
    relied := by
      have hrelied := h.relied
      rw [hflushing] at hrelied
      rw [hdoing'.1]
      exact hrelied
    results := fun r hr => by
      rw [hdoing'.1] at hr
      exact h.results r (by rw [hflushing]; exact hr)
    unclaimed := fun hr => by
      have hun := h.unclaimed hr
      rw [hflushing] at hun
      rw [hdoing'.1]
      exact hun
    plan := hplan
    marks := fun op hop => by
      rw [show Doing.marks doing = [] from hdoing'.2.1] at hop
      cases hop
    items := fun ops' now items hd => absurd hd (hdoing'.2.2 ops' now items) }

/-- Memory changes hands, and what is built, if anything, is given up or built anew. -/
theorem Inv.remember (h : Inv T s g) {t : State} {plan : Moves} (hstore : t.store = s.store)
    (hnext : t.nextSeq = s.nextSeq)
    (hrelied : Relied T g.cells (t.kept ++ t.flushing.flatMap Result.relies))
    (hjobs : ∀ j ∈ t.jobs, j.Ok T)
    (hresults : ∀ r ∈ t.buffer ++ t.unrecorded.flatten ++ t.flushing, r.Ok T)
    (hunclaimed : t.recovered = false →
      t.jobs = [] ∧ t.buffer ++ t.unrecorded.flatten ++ t.flushing = [])
    (hplan : Ready T t.nextSeq t.kept g.cells t.doing.pending plan)
    (hmarks : ∀ op ∈ t.doing.marks, Marks op)
    (hitems : ∀ ops now items, t.doing = .writing ops (.claimed now items) → t.recovered = true ∧
      (items.map fun it => (it.due.seq, it.due.sink)).Nodup ∧ (∀ it ∈ items, it.Read T g.cells) ∧
      plan = track T (items.map fun it => claimMove it.due)) : Inv T t ⟨g.cells, plan⟩ where
  models := hstore ▸ h.models
  good := h.good
  fresh q i hq := h.fresh q i (hnext ▸ hq)
  newer q hq := h.newer q (hnext ▸ hq)
  only := h.only
  plain := hstore ▸ h.plain
  relied := hrelied
  jobs := hjobs
  results := hresults
  unclaimed := hunclaimed
  plan := hplan
  marks := hmarks
  items := hitems

end Write

end Ankusa.Delivery
