import Ankusa.Delivery.Builders
import Ankusa.Delivery.Sums

set_option autoImplicit false

/-! # Where a delivery row is

The index of the delivery rows as a layout of cells: a delivery row is in one place (due, in flight,
a member of its lane, dead), and a lane has a head. Each operation builder of `Deliveries` and
`Lanes` makes one move of a row, or of a row and its lane's head, and adds to the counters what the
move changes. -/

namespace Ankusa.Delivery

open Deliveries KV Counters List Option Map

/-! ## The layout -/

/-- Where a row is. The size of a dead row is not in its dead keys but in the row itself. -/
inductive Place where
  | due (ord : Nat) (time : Ms) (size : Nat) (kind : Kind)
  | inflight (ord size : Nat)
  | member (ord : Nat) (lane : Lane) (size : Nat)
  | dead (ord : Nat) (time : Ms) (source : String) (id : Option String)

/-- The tenant of the place. -/
def Place.ord : Place → Nat
  | .due o _ _ _ | .inflight o _ | .member o _ _ | .dead o _ _ _ => o

/-- Due or in flight. -/
def Place.live : Place → Bool
  | .due _ _ _ _ | .inflight _ _ => true
  | .member _ _ _ | .dead _ _ _ _ => false

/-- A cell of the index: a row, or the head of a lane. -/
inductive Cell where
  | row (seq sink : Nat)
  | head (ord : Nat) (lane : Lane)
  deriving DecidableEq, Repr

/-- What a cell holds. -/
inductive Slot where
  | row (body : Val) (place : Place)
  | head (seq sink : Nat)

/-- What a batch relies on: the place of a row, whatever the row says, and the row a head names. -/
inductive Obs where
  | none
  | row (place : Place)
  | head (seq sink : Nat)

/-- The cell a key belongs to. -/
def cellOf : Key → Option Cell
  | .delivery q i | .due _ _ q i | .inflight _ q i | .dead _ q i | .deadByTenant _ _ q i
  | .laneMember _ _ q i => some (.row q i)
  | .laneHead o l => some (.head o l)
  | _ => none

/-- The index keys of a row in a place, and what they hold. -/
def Place.contents (q i : Nat) : Place → List (Key × Val)
  | .due o t n k => [(.due o t q i, .due n k)]
  | .inflight o n => [(.inflight o q i, .size n)]
  | .member o l n => [(.laneMember o l q i, .size n)]
  | .dead o t source id => [(.dead t q i, .owner source id o), (.deadByTenant o t q i, .empty)]

/-- The keys of a cell, with their values. -/
def Slot.contents : Cell → Slot → List (Key × Val)
  | .row q i, .row v p => (.delivery q i, v) :: p.contents q i
  | .head o l, .head q i => [(.laneHead o l, .rowRef q i)]
  | .row _ _, .head _ _ | .head _ _, .row _ _ => []

/-- The value under a key of a cell. -/
def valueAt (contents : List (Key × Val)) (k : Key) : Option Val :=
  (contents.find? fun c => decide (c.1 = k)).map Prod.snd

/-- What is observed of a cell: where its row is, or which row heads the lane. -/
def obs : Option Slot → Obs
  | none => .none
  | some (.row _ p) => .row p
  | some (.head q i) => .head q i

/-- The layout of the delivery rows and lane heads. -/
def index : Layout Key Val Cell Slot Obs where
  cell := cellOf
  view c e := valueAt (e.contents c)
  obs := obs

/-- The row of a slot, as stored. -/
def bodyOf : Option Slot → Val
  | some (.row v _) => v
  | _ => .empty

/-- A row goes from one place to another, or comes, or goes; its stored row is rewritten or not. -/
def rowMove (q i : Nat) (src : Option Place) (body : Option Val) (dst : Option Place) :
    Move Cell Slot Obs where
  cell := .row q i
  src := src.elim .none .row
  upd e := dst.map fun p => .row (body.getD (bodyOf e)) p

/-- The head of a lane passes from one row to another, or comes, or goes. -/
def headMove (o : Nat) (l : Lane) (src dst : Option (Nat × Nat)) : Move Cell Slot Obs where
  cell := .head o l
  src := src.elim .none fun r => .head r.1 r.2
  upd _ := dst.map fun r => .head r.1 r.2

@[simp] theorem rowMove_cell (q i : Nat) (src : Option Place) (body : Option Val)
    (dst : Option Place) : (rowMove q i src body dst).cell = .row q i := rfl

@[simp] theorem headMove_cell (o : Nat) (l : Lane) (src dst : Option (Nat × Nat)) :
    (headMove o l src dst).cell = .head o l := rfl

variable {e : Option Slot}

theorem obs_eq_none : obs e = .none ↔ e = none := by
  rcases e with _ | ⟨v, p⟩ | ⟨q, i⟩ <;> simp [obs]

theorem obs_eq_row {p : Place} : obs e = .row p ↔ ∃ v, e = some (.row v p) := by
  rcases e with _ | ⟨v, p'⟩ | ⟨q, i⟩ <;> simp [obs]

theorem obs_eq_head {q i : Nat} : obs e = .head q i ↔ e = some (.head q i) := by
  rcases e with _ | ⟨v, p⟩ | ⟨q, i⟩ <;> simp [obs]

variable {contents : List (Key × Val)} {c : Key × Val} {op : Op} {ms : List (Move Cell Slot Obs)}

theorem valueAt_of_mem (hnodup : (contents.map Prod.fst).Nodup) {k : Key}
    {v : Val} (h : (k, v) ∈ contents) : valueAt contents k = some v := by
  unfold valueAt
  induction contents with
  | nil => cases h
  | cons c contents ih =>
    rw [map_cons, nodup_cons] at hnodup
    rcases mem_cons.1 h with rfl | h
    · simp
    · have hne : c.1 ≠ k := fun he => hnodup.1 (he ▸ mem_map_of_mem h)
      rw [find?_cons_of_neg (by simpa using hne)]
      exact ih hnodup.2 h

theorem valueAt_of_not_mem {k : Key} (h : k ∉ contents.map Prod.fst) :
    valueAt contents k = none := by
  unfold valueAt
  rw [find?_eq_none.2 fun c hc => by
    simpa using fun he : c.1 = k => h (he ▸ mem_map_of_mem hc)]
  rfl

theorem valueAt_cons (c : Key × Val) (contents : List (Key × Val)) (k : Key) :
    valueAt (c :: contents) k = if c.1 = k then some c.2 else valueAt contents k := by
  unfold valueAt
  by_cases h : c.1 = k
  · rw [find?_cons_of_pos (by simpa using h), if_pos h]
    rfl
  · rw [find?_cons_of_neg (by simpa using h), if_neg h]

theorem Place.nodup_contents (q i : Nat) (p : Place) : ((p.contents q i).map Prod.fst).Nodup := by
  cases p <;> simp [Place.contents]

theorem Place.cellOf_contents {q i : Nat} {p : Place} (h : c ∈ p.contents q i) :
    cellOf c.1 = some (.row q i) ∧ c.1 ≠ .delivery q i := by
  cases p <;> simp only [Place.contents, mem_cons, not_mem_nil, or_false] at h
  case dead =>
    rcases h with rfl | rfl
    all_goals exact ⟨rfl, by simp⟩
  all_goals
    subst h
    exact ⟨rfl, by simp⟩

/-! ## One row -/

/-- The index keys of a row, none when it is absent. -/
def placed (q i : Nat) (p : Option Place) : List (Key × Val) := p.elim [] (Place.contents q i)

theorem placed_nodup (q i : Nat) (p : Option Place) : ((placed q i p).map Prod.fst).Nodup := by
  cases p with
  | none => exact nodup_nil
  | some p => exact p.nodup_contents q i

theorem cellOf_placed {q i : Nat} {p : Option Place} (h : c ∈ placed q i p) :
    cellOf c.1 = some (.row q i) ∧ c.1 ≠ .delivery q i := by
  cases p with
  | none => cases h
  | some => exact Place.cellOf_contents h

/-- What a key of a row holds when its stored row is `v` and its place `p`. -/
theorem view_row (q i : Nat) (v : Val) (p : Option Place) (k : Key) :
    ((p.map (Slot.row v)).bind fun e => valueAt (e.contents (.row q i)) k) =
      if k = .delivery q i then p.map fun _ => v else valueAt (placed q i p) k := by
  cases p with
  | none => simp [placed, valueAt]
  | some p =>
    show valueAt ((.delivery q i, v) :: p.contents q i) k = _
    rw [valueAt_cons]
    by_cases h : k = .delivery q i
    · simp [h]
    · rw [if_neg (Ne.symm h), if_neg h]
      rfl

/-- The operations that take a row from `src` to `dst`: its stored row, its old index keys, its new
    ones. -/
def rowOps (q i : Nat) (src : Option Place) (body : Option Val) (dst : Option Place) : List Op :=
  (match dst, body with
    | none, _ => [.delete (.delivery q i)]
    | some _, some v => [.put (.delivery q i) v]
    | some _, none => []) ++
  (placed q i src).map (fun c => .delete c.1) ++ (placed q i dst).map fun c => .put c.1 c.2

theorem mem_rowOps {q i : Nat} {src dst : Option Place} {body : Option Val} :
    op ∈ rowOps q i src body dst ↔
      (op = .delete (.delivery q i) ∧ dst = none) ∨
      (∃ v, op = .put (.delivery q i) v ∧ body = some v ∧ dst ≠ none) ∨
      (∃ c ∈ placed q i src, op = .delete c.1) ∨ ∃ c ∈ placed q i dst, op = .put c.1 c.2 := by
  unfold rowOps
  cases dst <;> cases body <;> simp [eq_comm]

section RowOps

variable {q i : Nat} {src dst : Option Place} {body : Option Val} {ops : List Op}

theorem cellOf_rowOps (h : op ∈ rowOps q i src body dst) : cellOf op.key = some (.row q i) := by
  rcases mem_rowOps.1 h with ⟨rfl, -⟩ | ⟨v, rfl, -⟩ | ⟨c, hc, rfl⟩ | ⟨c, hc, rfl⟩
  · rfl
  · rfl
  · exact (cellOf_placed hc).1
  · exact (cellOf_placed hc).1

variable (hsup : ∀ op ∈ rowOps q i src body dst, op ∈ ops)
  (hdis : ∀ c ∈ placed q i src, c.1 ∉ (placed q i dst).map Prod.fst)
  (hbody : src.isSome = true ∨ body.isSome = true ∨ dst = none)
include hsup hdis hbody

/-- What a batch whose operations on the row are those, in whatever order, leaves under the keys of
    the row. -/
theorem get_write_rowOps (hsub : ∀ op ∈ ops, cellOf op.key = some (.row q i) →
      op ∈ rowOps q i src body dst)
    (s : Store) (v : Val) {k : Key} (hk : cellOf k = some (.row q i))
    (hold : s.get k = if k = .delivery q i then src.map fun _ => v
      else valueAt (placed q i src) k) :
    (s.write ops).get k =
      if k = .delivery q i then dst.map fun _ => body.getD v else valueAt (placed q i dst) k := by
  have hon : ∀ op ∈ ops, op.key = k → op ∈ rowOps q i src body dst :=
    fun op hop hkey => hsub op hop (hkey ▸ hk)
  by_cases hrow : k = .delivery q i
  · rw [if_pos hrow] at hold ⊢
    subst hrow
    -- the stored row: no index key is under its key
    have hkind : ∀ op ∈ ops, op.key = .delivery q i → (op = .delete (.delivery q i) ∧ dst = none) ∨
        ∃ v, op = .put (.delivery q i) v ∧ body = some v ∧ dst ≠ none := by
      intro op hop hkey
      rcases mem_rowOps.1 (hon op hop hkey) with h | h | ⟨c, hc, rfl⟩ | ⟨c, hc, rfl⟩
      · exact .inl h
      · exact .inr h
      · exact absurd hkey (cellOf_placed hc).2
      · exact absurd hkey (cellOf_placed hc).2
    cases dst with
    | none =>
      refine get_write_delete s (hsup _ (mem_rowOps.2 (.inl ⟨rfl, rfl⟩))) fun op hop hkey => ?_
      rcases hkind op hop hkey with h | ⟨v, -, -, h⟩
      · exact h.1
      · exact absurd rfl h
    | some p =>
      cases body with
      | some w =>
        refine get_write_put s (hsup _ (mem_rowOps.2 (.inr (.inl ⟨w, rfl, rfl, by simp⟩))))
          fun op hop hkey => ?_
        rcases hkind op hop hkey with ⟨-, h⟩ | ⟨v, rfl, h, -⟩
        · cases h
        · rw [← some.inj h]
          rfl
      | none =>
        rw [get_untouched s fun op hop hkey => ?_, hold]
        · cases src with
          | none => simp at hbody
          | some => rfl
        · rcases hkind op hop hkey with ⟨-, h⟩ | ⟨v, -, h, -⟩
          · cases h
          · cases h
  · rw [if_neg hrow] at hold ⊢
    have hkind : ∀ op ∈ ops, op.key = k →
        (∃ c ∈ placed q i src, op = .delete c.1) ∨ ∃ c ∈ placed q i dst, op = .put c.1 c.2 := by
      intro op hop hkey
      rcases mem_rowOps.1 (hon op hop hkey) with ⟨rfl, -⟩ | ⟨v, rfl, -⟩ | h
      · exact absurd hkey.symm hrow
      · exact absurd hkey.symm hrow
      · exact h
    by_cases hnew : k ∈ (placed q i dst).map Prod.fst
    · obtain ⟨c, hc, rfl⟩ := mem_map.1 hnew
      rw [valueAt_of_mem (placed_nodup q i dst) hc]
      refine get_write_put s (hsup _ (mem_rowOps.2 (.inr (.inr (.inr ⟨c, hc, rfl⟩)))))
        fun op hop hkey => ?_
      rcases hkind op hop hkey with ⟨c', hc', rfl⟩ | ⟨c', hc', rfl⟩
      · have hsame : c'.1 = c.1 := hkey
        exact absurd (hsame ▸ hnew) (hdis c' hc')
      · have hval := valueAt_of_mem (placed_nodup q i dst) hc'
        rw [show c'.1 = c.1 from hkey, valueAt_of_mem (placed_nodup q i dst) hc] at hval
        rw [show c'.1 = c.1 from hkey, some.inj hval]
    · rw [valueAt_of_not_mem hnew]
      by_cases hgone : k ∈ (placed q i src).map Prod.fst
      · obtain ⟨c, hc, rfl⟩ := mem_map.1 hgone
        refine get_write_delete s (hsup _ (mem_rowOps.2 (.inr (.inr (.inl ⟨c, hc, rfl⟩)))))
          fun op hop hkey => ?_
        rcases hkind op hop hkey with ⟨c', -, rfl⟩ | ⟨c', hc', rfl⟩
        · rw [show c'.1 = c.1 from hkey]
        · exact absurd (hkey ▸ mem_map_of_mem hc') hnew
      · rw [get_untouched s fun op hop hkey => ?_, hold, valueAt_of_not_mem hgone]
        rcases hkind op hop hkey with ⟨c, hc, rfl⟩ | ⟨c, hc, rfl⟩
        · exact hgone (hkey ▸ mem_map_of_mem hc)
        · exact hnew (hkey ▸ mem_map_of_mem hc)

theorem moves_rowOps (hsub : ∀ op ∈ ops, cellOf op.key = some (.row q i) →
      op ∈ rowOps q i src body dst)
    (s : Store) (e : Option Slot) (he : index.Holds s (.row q i) e)
    (hsrc : obs e = (rowMove q i src body dst).src) :
    index.Holds (s.write ops) (.row q i) ((rowMove q i src body dst).upd e) := by
  intro k hk
  have hold : ∃ v, e = src.map (Slot.row v) ∧ v = bodyOf e := by
    cases src with
    | none => exact ⟨.empty, obs_eq_none.1 hsrc, by rw [obs_eq_none.1 hsrc]; rfl⟩
    | some =>
      obtain ⟨v, rfl⟩ := obs_eq_row.1 hsrc
      exact ⟨v, rfl, rfl⟩
  obtain ⟨v, hev, hv⟩ := hold
  have hget : s.get k = e.bind fun e => valueAt (e.contents (.row q i)) k := he k hk
  rw [hev, view_row] at hget
  show _ = (dst.map (Slot.row (body.getD (bodyOf e)))).bind fun e =>
    valueAt (e.contents (.row q i)) k
  rw [view_row, ← hv]
  exact get_write_rowOps hsup hdis hbody hsub s v hk hget

/-- A piece of a batch whose operations on cells are those of a move, in whatever order, makes the
    move. -/
theorem does_rowOps (hsub : ∀ op ∈ ops, cellOf op.key = none ∨ op ∈ rowOps q i src body dst) :
    index.Does ops [rowMove q i src body dst] where
  nodup := nodup_singleton _
  frame op hop c hc := by
    have hcell : cellOf op.key = some c := hc
    have hin := (hsub op hop).resolve_left (by simp [hcell])
    exact mem_singleton.2 (some.inj (hcell.symm.trans (cellOf_rowOps hin)))
  moves m hm := by
    obtain rfl := mem_singleton.1 hm
    refine moves_rowOps hsup hdis hbody fun op hop hcell => ?_
    exact (hsub op hop).resolve_left (by simp [hcell])

end RowOps

/-! ## One head -/

/-- The operation that gives a lane its next head, or none. -/
def headOp (o : Nat) (l : Lane) : Option (Nat × Nat) → Op
  | some r => .put (.laneHead o l) (.rowRef r.1 r.2)
  | none => .delete (.laneHead o l)

theorem moves_headOp {o : Nat} {l : Lane} {src dst : Option (Nat × Nat)} {ops : List Op}
    (hsub : ∀ op ∈ ops, op.key = .laneHead o l → op = headOp o l dst) (hmem : headOp o l dst ∈ ops)
    (s : Store) (e : Option Slot) : index.Holds (s.write ops) (.head o l)
    ((headMove o l src dst).upd e) := by
  intro k hk
  have hkey : k = .laneHead o l := by
    cases k <;> simp [index, cellOf] at hk
    rw [hk.1, hk.2]
  subst hkey
  cases dst with
  | none =>
    rw [get_write_delete s hmem hsub]
    rfl
  | some r =>
    rw [get_write_put s hmem hsub]
    show _ = valueAt [(.laneHead o l, .rowRef r.1 r.2)] _
    rw [valueAt_cons, if_pos rfl]

theorem does_headOp (o : Nat) (l : Lane) (src dst : Option (Nat × Nat)) :
    index.Does [headOp o l dst] [headMove o l src dst] where
  nodup := nodup_singleton _
  frame op hop c hc := by
    obtain rfl := mem_singleton.1 hop
    cases dst <;> exact mem_singleton.2 (some.inj hc).symm
  moves m hm s e he hsrc := by
    obtain rfl := mem_singleton.1 hm
    exact moves_headOp (fun op hop _ => mem_singleton.1 hop) (mem_singleton_self _) s e

/-- Nothing on any cell: markers, cleared hooks, counters. -/
theorem does_none {ops : List Op} (h : ∀ op ∈ ops, cellOf op.key = none) : index.Does ops [] :=
  Layout.Does.of_none h

theorem Does.append_none {ops ops' : List Op} (h : index.Does ops ms)
    (h' : index.Does ops' []) : index.Does (ops ++ ops') ms := by
  simpa using h.append h' fun _ _ => not_mem_nil

theorem Does.counted {ops : List Op} (h : index.Does ops ms)
    (ds : List Counters.Delta) : index.Does (ops ++ Counters.ops ds) ms := by
  refine Does.append_none h (does_none fun op hop => ?_)
  obtain ⟨o, f, d, rfl⟩ := Counters.mem_ops hop
  rfl

/-! ## The builders -/

attribute [local simp] placed rowOps

section Builders

variable (o : Nat) (t : Ms) (q i n : Nat)

theorem does_new (row : Row) : index.Does (newOps o t q i n row none)
      [rowMove q i none (some (.row row)) (some (.due o t n .firstAttempt))] := by
  refine Does.counted (does_rowOps ?_ ?_ ?_ ?_) _ <;> simp [dueOps, Place.contents, cellOf]

theorem does_new_lane (row : Row) (l : Lane) : index.Does (newOps o t q i n row (some l))
      [rowMove q i none (some (.row row)) (some (.member o l n))] := by
  refine Does.counted ?_ _
  rw [Lanes.memberOps, ← append_assoc]
  refine Does.counted (does_rowOps ?_ ?_ ?_ ?_) _ <;> simp [Place.contents, cellOf]

theorem does_claim (k : Kind) (ds : List Counters.Delta) :
    index.Does ([.delete (.due o t q i), .put (.inflight o q i) (.size n)] ++ Counters.ops ds)
      [rowMove q i (some (.due o t n k)) none (some (.inflight o n))] := by
  refine Does.counted (does_rowOps ?_ ?_ ?_ ?_) _ <;> simp [Place.contents]

theorem does_recover (k : Kind) (ds : List Counters.Delta) :
    index.Does (.delete (.inflight o q i) :: (dueOps o t q i n k ++ Counters.ops ds))
      [rowMove q i (some (.inflight o n)) none (some (.due o t n k))] := by
  rw [← cons_append]
  refine Does.counted (does_rowOps ?_ ?_ ?_ ?_) _ <;> simp [dueOps, Place.contents, cellOf]

theorem does_delivered (ds : List Counters.Delta) :
    index.Does ([.delete (.delivery q i), .delete (.inflight o q i),
      .put (.cleared q 0 i) .empty] ++
      Counters.ops ds) [rowMove q i (some (.inflight o n)) none none] := by
  refine Does.counted (does_rowOps ?_ ?_ ?_ ?_) _ <;> simp [Place.contents, cellOf]

theorem does_retry (m : Nat) (row : Row) (k : Kind) (ds : List Counters.Delta) :
    index.Does ([.put (.delivery q i) (.row row), .delete (.inflight o q i)] ++
      dueOps o t q i m k ++
      Counters.ops ds) [rowMove q i (some (.inflight o n)) (some (.row row))
      (some (.due o t m k))] := by
  refine Does.counted (does_rowOps ?_ ?_ ?_ ?_) _ <;> simp [dueOps, Place.contents, cellOf]

variable {p : Place}

theorem Place.contents_eq (hp : ∀ o t src id, p ≠ .dead o t src id) :
    ∃ k v, p.contents q i = [(k, v)] ∧ cellOf k = some (.row q i) ∧ (∀ t, k ≠ .dead t q i) ∧
      (∀ o t, k ≠ .deadByTenant o t q i) ∧ k ≠ .delivery q i := by
  cases p with
  | due | inflight | member => exact ⟨_, _, rfl, rfl, by simp⟩
  | dead o t src id => exact absurd rfl (hp o t src id)

variable {k : Key} {v : Val}

section

variable (hp : p.contents q i = [(k, v)])
include hp

theorem does_dead (hplace : ∀ o t src id, p ≠ .dead o t src id) (row : Row) (source : String)
    (id : Option String) (ds : List Counters.Delta) :
    index.Does ([.put (.delivery q i) (.row row)] ++ [.delete k] ++
      [.put (.dead t q i) (.owner source id o), .put (.deadByTenant o t q i) .empty] ++
      Counters.ops ds)
      [rowMove q i (some p) (some (.row row)) (some (.dead o t source id))] := by
  obtain ⟨k', v', hk', hcell, hdead, htenant, -⟩ := Place.contents_eq q i hplace
  obtain ⟨rfl, rfl⟩ : k = k' ∧ v = v' := by simpa [hp] using hk'
  have hcontents : (Place.dead o t source id).contents q i =
      [(.dead t q i, .owner source id o), (.deadByTenant o t q i, .empty)] := rfl
  refine Does.counted (does_rowOps ?_ ?_ ?_ ?_) _ <;> simp [hcontents, hp, hdead, htenant]

theorem does_gone {ops : List Op}
    (hsub : ∀ op ∈ ops, op = .delete k ∨ op = .delete (.delivery q i) ∨ cellOf op.key = none)
    (hk : .delete k ∈ ops) (hrow : .delete (.delivery q i) ∈ ops) :
    index.Does ops [rowMove q i (some p) none none] := by
  refine does_rowOps (by simp [hp, hk, hrow]) (by simp) (by simp) fun op hop => ?_
  rcases hsub op hop with rfl | rfl | h
  · exact .inr (by simp [hp])
  · exact .inr (by simp [hp])
  · exact .inl h

theorem does_orphan (ds : List Counters.Delta) :
    index.Does ([.delete (.delivery q i)] ++ [.delete k] ++ Counters.ops ds)
      [rowMove q i (some p) none none] := by
  refine Does.counted (does_gone q i hp ?_ ?_ ?_) _ <;> simp

theorem does_purge (ds : List Counters.Delta) :
    index.Does (purgeRow k q i ds) [rowMove q i (some p) none none] := by
  refine Does.counted (does_gone q i hp ?_ ?_ ?_) _ <;> simp [cellOf]

end

/-- Where a revived row goes. -/
def requeued (ord : Nat) (now : Ms) (size : Nat) (row : Row) : Place :=
  match row.lane with
  | some (lane, _) => .member ord lane size
  | none => .due ord now size .firstAttempt

theorem does_revive (h : Hit) (row : Row) (source : String) (id : Option String)
    (ds : List Counters.Delta) :
    index.Does ([.put (.delivery h.seq h.sink) (.row row)] ++ deadGone h ++
      requeueOps h.ord t h.seq h.sink n row ++ Counters.ops ds)
      [rowMove h.seq h.sink (some (.dead h.ord h.time source id)) (some (.row row))
        (some (requeued h.ord t n row))] := by
  refine Does.counted ?_ _
  unfold requeueOps requeued
  rcases row.lane with _ | ⟨lane, key⟩
  · refine does_rowOps ?_ ?_ ?_ ?_ <;> simp [deadGone, dueOps, Place.contents, cellOf]
  · dsimp only
    rw [Lanes.memberOps, ← append_assoc]
    refine Does.counted (does_rowOps ?_ ?_ ?_ ?_) _ <;>
      simp [deadGone, Place.contents, cellOf]

theorem does_evict (n : Nat) (h : Hit) (source : String) (id : Option String) :
    index.Does (evictRow n h)
      [rowMove h.seq h.sink (some (.dead h.ord h.time source id)) none none] := by
  refine Does.counted (does_rowOps ?_ ?_ ?_ ?_) _ <;>
    simp [deadGone, Place.contents, cellOf]

theorem does_purgeDead (s : Store) (h : Hit) (source : String) (id : Option String) :
    index.Does (purgeDeadRow s h)
      [rowMove h.seq h.sink (some (.dead h.ord h.time source id)) none none] := by
  refine Does.counted (does_rowOps ?_ ?_ ?_ ?_) _ <;> simp [Place.contents, cellOf]

theorem does_vacate (l : Lane) (src : Option (Nat × Nat)) :
    index.Does (Lanes.vacateOps o l) [headMove o l src none] :=
  Does.counted (does_headOp o l src none) _

/-- A promotion moves two cells: the member's row and the lane's head. -/
theorem does_promote (l : Lane) (replace : Bool) (src : Option (Nat × Nat)) :
    index.Does (Lanes.promoteOps o l q i n t replace)
      [rowMove q i (some (.member o l n)) none (some (.due o t n .laneFirst)),
        headMove o l src (some (q, i))] := by
  refine Does.counted ⟨by simp, ?_, ?_⟩ _
  · simp [dueOps, index, cellOf]
  · intro m hm s e he hsrc
    rcases mem_cons.1 hm with rfl | hm
    · refine moves_rowOps ?_ ?_ ?_ ?_ s e he hsrc <;> simp [dueOps, Place.contents, cellOf]
    · obtain rfl := mem_singleton.1 hm
      refine moves_headOp ?_ ?_ s e <;> simp [dueOps, headOp]

/-- A stored row is overwritten where it stands. -/
theorem does_body (p : Place) (v : Val) :
    index.Does [.put (.delivery q i) v] [rowMove q i (some p) (some v) (some p)] where
  nodup := nodup_singleton _
  frame op hop c hc := by
    obtain rfl := mem_singleton.1 hop
    exact mem_singleton.2 (some.inj hc).symm
  moves m hm s e he hsrc k hk := by
    obtain rfl := mem_singleton.1 hm
    obtain ⟨w, rfl⟩ := obs_eq_row.1 hsrc
    have hold : s.get k = ((some p).map (Slot.row w)).bind fun e =>
      valueAt (e.contents (.row q i)) k := he k hk
    show _ = ((some p).map (Slot.row v)).bind fun e => valueAt (e.contents (.row q i)) k
    rw [view_row] at hold ⊢
    by_cases hkey : k = .delivery q i
    · subst hkey
      rw [get_write_put s (mem_singleton_self _) fun op hop _ => mem_singleton.1 hop, if_pos rfl]
      rfl
    · rw [if_neg hkey] at hold ⊢
      rw [get_untouched s (by simpa using Ne.symm hkey), hold]

end Builders

end Ankusa.Delivery

