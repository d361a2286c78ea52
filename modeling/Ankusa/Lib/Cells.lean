import Ankusa.Lib.KV
import Mathlib.Algebra.BigOperators.Group.Finset.Basic
import Mathlib.Algebra.Order.BigOperators.Group.List
import Mathlib.Algebra.Order.Ring.Int

set_option autoImplicit false

/-! # A store divided into cells

The keys of a store fall into *cells*, each of which is in one of finitely described states (or
absent): a `Layout` says which cell a key belongs to and what its keys hold in each state. A store
*models* a finite map of cell states when each cell's keys hold exactly what its state says, and a
batch is understood by the *moves* it makes: which cells it touches, what it must find there and
what it leaves.

`Does ops ms` says that the batch `ops` makes the moves `ms`. It is proved once for each piece of a
batch (`Does.append` puts the pieces together), and then gives the state after the batch
(`Models.write`), what the batch keeps (`Keeps`), and, for counters kept by blind additions, that
they stay the sums over the cells they count (`Counted.write`). -/

namespace KV

open List AList

variable {K V C E O X : Type*}

/-! ## Totals over a finite map -/

section Total

variable [DecidableEq C]

/-- Put the cell into a state, or remove it. -/
def Map.set (A : Map C E) (c : C) : Option E → Map C E
  | some e => A.insert c e
  | none => A.erase c

@[simp] theorem Map.get_set (A : Map C E) (c c' : C) (e : Option E) :
    (A.set c e).get c' = if c' = c then e else A.get c' := by
  unfold Map.get
  by_cases h : c' = c
  · subst h
    cases e with
    | none => simp [Map.set, lookup_erase]
    | some => simp [Map.set, lookup_insert]
  · cases e with
    | none => simp [Map.set, h, lookup_erase_ne h]
    | some => simp [Map.set, h, lookup_insert_ne h]

/-- What a cell weighs: nothing when it is absent. -/
def weigh (w : C → E → Int) (c : C) : Option E → Int
  | some e => w c e
  | none => 0

omit [DecidableEq C] in
@[simp] theorem weigh_some (w : C → E → Int) (c : C) (e : E) : weigh w c (some e) = w c e := rfl

omit [DecidableEq C] in
@[simp] theorem weigh_none (w : C → E → Int) (c : C) : weigh w c none = 0 := rfl

/-- The sum of the weights of all cells. -/
def Map.total (w : C → E → Int) (A : Map C E) : Int := (A.entries.map fun e => w e.1 e.2).sum

theorem sum_kerase (w : C → E → Int) (c : C) (l : List (Sigma fun _ : C => E)) :
    ((List.kerase c l).map fun e => w e.1 e.2).sum =
      (l.map fun e => w e.1 e.2).sum - weigh w c (List.dlookup c l) := by
  induction l with
  | nil => simp
  | cons e l ih =>
    by_cases h : c = e.1
    · subst h
      rw [kerase_cons_eq rfl, dlookup_cons_eq]
      simp
    · rw [kerase_cons_ne h, dlookup_cons_ne _ _ h, map_cons, sum_cons, ih, map_cons, sum_cons]
      omega

theorem Map.total_set (w : C → E → Int) (A : Map C E) (c : C) (e : Option E) :
    (A.set c e).total w = A.total w + (weigh w c e - weigh w c (A.get c)) := by
  have hrest := sum_kerase w c A.entries
  cases e with
  | none =>
    show ((List.kerase c A.entries).map fun e => w e.1 e.2).sum = _
    rw [hrest, weigh_none]
    show _ = (A.entries.map fun e => w e.1 e.2).sum + (0 - weigh w c (List.dlookup c A.entries))
    omega
  | some e =>
    show ((A.insert c e).entries.map fun e => w e.1 e.2).sum = _
    rw [entries_insert, map_cons, sum_cons, hrest]
    show w c e + _ = _
    rw [weigh_some]
    show _ = (A.entries.map fun e => w e.1 e.2).sum + (w c e - weigh w c (List.dlookup c A.entries))
    omega

variable {w : C → E → Int} {A : Map C E}

omit [DecidableEq C] in
theorem Map.total_nonneg (hw : ∀ c e, 0 ≤ w c e) (A : Map C E) : 0 ≤ A.total w :=
  sum_nonneg (forall_mem_map.2 fun e _ => hw e.1 e.2)

theorem Map.total_eq_zero (h : ∀ c e, A.get c = some e → w c e = 0) : A.total w = 0 :=
  sum_eq_zero (forall_mem_map.2 fun e he => h e.1 e.2 (mem_lookup_iff.2 he))

/-- The total is that of the cells one by one. -/
theorem Map.total_congr {B : Map C E} (h : ∀ c, weigh w c (A.get c) = weigh w c (B.get c)) :
    A.total w = B.total w := by
  -- The cells of a list that has all that weigh anything are taken out one after the other.
  have hlist : ∀ (cs : List C) (A B : Map C E), (∀ c, weigh w c (A.get c) = weigh w c (B.get c)) →
      (∀ c ∉ cs, weigh w c (A.get c) = 0) → A.total w = B.total w := by
    intro cs
    induction cs with
    | nil =>
      intro A B h hzero
      rw [Map.total_eq_zero fun c e he => by simpa [he] using hzero c not_mem_nil,
        Map.total_eq_zero fun c e he => by simpa [he] using (h c).symm.trans (hzero c not_mem_nil)]
    | cons c cs ih =>
      intro A B h hzero
      have hrest :=
        ih (A.set c none) (B.set c none) (fun c' => by by_cases hc : c' = c <;> simp [hc, h])
        fun c' hc' => by by_cases hc : c' = c <;> simp_all
      rw [Map.total_set, Map.total_set, h c] at hrest
      omega
  refine hlist A.keys A B h fun c hc => ?_
  have hnone : A.get c = none := lookup_eq_none.2 hc
  rw [hnone, weigh_none]

theorem Map.weigh_le_total (hw : ∀ c e, 0 ≤ w c e) (A : Map C E) (c : C) :
    weigh w c (A.get c) ≤ A.total w := by
  have hset := Map.total_set w A c none
  have hrest := Map.total_nonneg hw (A.set c none)
  rw [weigh_none] at hset
  omega

end Total

/-! ## Layouts and moves -/

/-- How the keys of a store make up cells: the cell of a key, what the keys of a cell hold in a
    state, and the part of a state a batch relies on. -/
structure Layout (K V C E O : Type*) where
  cell : K → Option C
  view : C → E → K → Option V
  obs : Option E → O

/-- What a batch does to one cell: the part of the state it relies on, and the state it leaves. -/
structure Move (C E O : Type*) where
  cell : C
  src : O
  upd : Option E → Option E

section Moves

variable [DecidableEq C] {A : Map C E} {ms ms' : List (Move C E O)}

/-- The map after the moves. -/
def Map.moves (A : Map C E) (ms : List (Move C E O)) : Map C E :=
  ms.foldl (fun A m => A.set m.cell (m.upd (A.get m.cell))) A

@[simp] theorem Map.moves_nil (A : Map C E) : A.moves ([] : List (Move C E O)) = A := rfl

@[simp] theorem Map.moves_cons (A : Map C E) (m : Move C E O) (ms : List (Move C E O)) :
    A.moves (m :: ms) = (A.set m.cell (m.upd (A.get m.cell))).moves ms := rfl

theorem Map.get_unmoved {c : C} (h : c ∉ ms.map Move.cell) : (A.moves ms).get c = A.get c := by
  induction ms generalizing A with
  | nil => rfl
  | cons m ms ih =>
    rw [map_cons, mem_cons, not_or] at h
    rw [Map.moves_cons, ih h.2, Map.get_set, if_neg h.1]

theorem Map.get_moves_of_mem (hnodup : (ms.map Move.cell).Nodup) {m : Move C E O} (hm : m ∈ ms) :
    (A.moves ms).get m.cell = m.upd (A.get m.cell) := by
  induction ms generalizing A with
  | nil => cases hm
  | cons m' ms ih =>
    rw [map_cons, nodup_cons] at hnodup
    rw [Map.moves_cons]
    rcases mem_cons.1 hm with rfl | hm
    · rw [Map.get_unmoved hnodup.1, Map.get_set, if_pos rfl]
    · have hne : m.cell ≠ m'.cell := fun h => hnodup.1 (h ▸ mem_map_of_mem hm)
      rw [ih hnodup.2 hm, Map.get_set, if_neg hne]

theorem Map.get_moves_comm (hnodup : (ms.map Move.cell).Nodup) (hnodup' : (ms'.map Move.cell).Nodup)
    (hdis : ∀ m ∈ ms, m.cell ∉ ms'.map Move.cell) (c : C) :
    ((A.moves ms).moves ms').get c = ((A.moves ms').moves ms).get c := by
  have hdis' : ∀ m ∈ ms', m.cell ∉ ms.map Move.cell := by
    intro m' hm' hmem
    obtain ⟨m, hm, hcell⟩ := mem_map.1 hmem
    exact hdis m hm (hcell ▸ mem_map_of_mem hm')
  by_cases hc : c ∈ ms.map Move.cell
  · obtain ⟨m, hm, rfl⟩ := mem_map.1 hc
    rw [Map.get_unmoved (hdis m hm), Map.get_moves_of_mem hnodup hm,
      Map.get_moves_of_mem hnodup hm, Map.get_unmoved (hdis m hm)]
  · rw [Map.get_unmoved hc]
    by_cases hc' : c ∈ ms'.map Move.cell
    · obtain ⟨m', hm', rfl⟩ := mem_map.1 hc'
      rw [Map.get_moves_of_mem hnodup' hm', Map.get_moves_of_mem hnodup' hm',
        Map.get_unmoved (hdis' m' hm')]
    · rw [Map.get_unmoved hc', Map.get_unmoved hc', Map.get_unmoved hc]

/-- Moves of different cells change a total by what each of them changes. -/
theorem Map.total_moves (w : C → E → Int) (hnodup : (ms.map Move.cell).Nodup) :
    (A.moves ms).total w = A.total w +
      (ms.map fun m => weigh w m.cell (m.upd (A.get m.cell)) - weigh w m.cell
        (A.get m.cell)).sum := by
  induction ms generalizing A with
  | nil => simp
  | cons m ms ih =>
    rw [map_cons, nodup_cons] at hnodup
    have hrest : (ms.map fun m' =>
      weigh w m'.cell (m'.upd ((A.set m.cell (m.upd (A.get m.cell))).get
          m'.cell)) - weigh w m'.cell ((A.set m.cell (m.upd (A.get m.cell))).get m'.cell)) =
        ms.map fun m' => weigh w m'.cell (m'.upd (A.get m'.cell)) - weigh w m'.cell
            (A.get m'.cell) := by
      refine map_congr_left fun m' hm' => ?_
      have hne : m'.cell ≠ m.cell := fun h => hnodup.1 (h ▸ mem_map_of_mem hm')
      rw [Map.get_set, if_neg hne]
    rw [Map.moves_cons, ih hnodup.2, Map.total_set, hrest, map_cons, sum_cons]
    omega

end Moves

namespace Layout

variable (L : Layout K V C E O)

/-- The map has what the moves rely on. -/
def Fits [DecidableEq C] (A : Map C E) (ms : List (Move C E O)) : Prop :=
  ∀ m ∈ ms, L.obs (A.get m.cell) = m.src

/-- The layout with only the cells of `T`. -/
def restrict (T : C → Bool) : Layout K V C E O := { L with cell := fun k => (L.cell k).filter T }

variable {L} {s : Map K V} {A : Map C E} {c : C} {e : Option E} {ms ms' : List (Move C E O)}
  {T : C → Bool}

/-- Moves of other cells leave what a move relies on. -/
theorem Fits.moves [DecidableEq C] (h : L.Fits A ms')
    (hdis : ∀ m ∈ ms', m.cell ∉ ms.map Move.cell) : L.Fits (A.moves ms) ms' := by
  intro m hm
  rw [Map.get_unmoved (hdis m hm)]
  exact h m hm

theorem restrict_cell {k : K} :
    (L.restrict T).cell k = some c ↔ L.cell k = some c ∧ T c = true := by
  simp [restrict, Option.filter_eq_some_iff]

variable [DecidableEq K] (L)

/-- The keys of cell `c` hold what state `e` says. -/
def Holds (s : Map K V) (c : C) (e : Option E) : Prop :=
  ∀ k, L.cell k = some c → s.get k = e.bind fun e => L.view c e k

/-- Every cell of the store is in the state the map gives it. -/
def Models [DecidableEq C] (s : Map K V) (A : Map C E) : Prop := ∀ c, L.Holds s c (A.get c)

variable {L}

theorem Holds.restrict_iff (hc : T c = true) : (L.restrict T).Holds s c e ↔ L.Holds s c e := by
  unfold Holds
  simp only [restrict_cell, hc, and_true]
  rfl

variable [Num V]

/-- The operations of the batch on cell keys are those of the moves. -/
structure Does (L : Layout K V C E O) (ops : List (Op K V)) (ms : List (Move C E O)) : Prop where
  nodup : (ms.map Move.cell).Nodup
  frame : ∀ op ∈ ops, ∀ c, L.cell op.key = some c → c ∈ ms.map Move.cell
  moves : ∀ m ∈ ms, ∀ s e, L.Holds s m.cell e → L.obs e = m.src →
    L.Holds (s.write ops) m.cell (m.upd e)

variable {ops ops' : List (Op K V)}

/-- A cell the batch does not touch stays as it is. -/
theorem Holds.write_of_untouched (h : L.Holds s c e)
    (hops : ∀ op ∈ ops, L.cell op.key ≠ some c) : L.Holds (s.write ops) c e := by
  intro k hk
  rw [Map.get_untouched s fun op hop hkey => hops op hop (by rw [hkey, hk])]
  exact h k hk

theorem Does.untouched (h : L.Does ops ms) (hc : c ∉ ms.map Move.cell) :
    ∀ op ∈ ops, L.cell op.key ≠ some c :=
  fun op hop hcell => hc (h.frame op hop c hcell)

theorem Does.of_none (h : ∀ op ∈ ops, L.cell op.key = none) : L.Does ops [] where
  nodup := nodup_nil
  frame op hop c hc := absurd hc (by simp [h op hop])
  moves m hm := absurd hm not_mem_nil

theorem Does.nil : L.Does [] [] := Does.of_none (forall_mem_nil _)

/-- Two pieces of a batch that move different cells. -/
theorem Does.append (h : L.Does ops ms) (h' : L.Does ops' ms')
    (hdis : ∀ c ∈ ms.map Move.cell, c ∉ ms'.map Move.cell) : L.Does (ops ++ ops') (ms ++ ms') where
  nodup := by
    rw [map_append]
    exact nodup_append.2 ⟨h.nodup, h'.nodup, fun a ha b hb hab => hdis a ha (hab ▸ hb)⟩
  frame op hop c hc := by
    rw [map_append, mem_append]
    rcases mem_append.1 hop with hop | hop
    · exact .inl (h.frame op hop c hc)
    · exact .inr (h'.frame op hop c hc)
  moves m hm s e he hsrc := by
    rw [Map.write_append]
    rcases mem_append.1 hm with hm | hm
    · have hcell := hdis _ (mem_map_of_mem hm)
      exact (h.moves m hm s e he hsrc).write_of_untouched (h'.untouched hcell)
    · have hcell : m.cell ∉ ms.map Move.cell := fun hc => hdis _ hc (mem_map_of_mem hm)
      exact h'.moves m hm _ e (he.write_of_untouched (h.untouched hcell)) hsrc

theorem Does.flatMap {α : Type*} {xs : List α} {ops : α → List (Op K V)}
    {ms : α → List (Move C E O)}
    (h : ∀ x ∈ xs, L.Does (ops x) (ms x)) (hnodup : ((xs.flatMap ms).map Move.cell).Nodup) :
    L.Does (xs.flatMap ops) (xs.flatMap ms) := by
  induction xs with
  | nil => exact Does.nil
  | cons x xs ih =>
    obtain ⟨hx, hxs⟩ := forall_mem_cons.1 h
    rw [flatMap_cons, map_append, nodup_append] at hnodup
    rw [flatMap_cons, flatMap_cons]
    exact hx.append (ih hxs hnodup.2.1) fun c hc hc' => hnodup.2.2 c hc c hc' rfl

theorem Does.perm (h : L.Does ops ms) (hp : ms.Perm ms') : L.Does ops ms' where
  nodup := (hp.map _).nodup_iff.1 h.nodup
  frame op hop c hc := (hp.map _).mem_iff.1 (h.frame op hop c hc)
  moves m hm := h.moves m (hp.mem_iff.2 hm)

/-- A batch may rely on a cell that it leaves alone. -/
theorem Does.keep (h : L.Does ops ms) {m : Move C E O} (hm : m.cell ∉ ms.map Move.cell)
    (hupd : ∀ e, L.obs e = m.src → m.upd e = e) : L.Does ops (ms ++ [m]) where
  nodup := by
    rw [map_append]
    refine nodup_append.2 ⟨h.nodup, nodup_singleton _, fun a ha b hb hab => hm ?_⟩
    rw [← mem_singleton.1 hb, ← hab]
    exact ha
  frame op hop c hc := by
    rw [map_append]
    exact mem_append_left _ (h.frame op hop c hc)
  moves m' hm' s e he hsrc := by
    rcases mem_append.1 hm' with hm' | hm'
    · exact h.moves m' hm' s e he hsrc
    · obtain rfl := mem_singleton.1 hm'
      rw [hupd e hsrc]
      exact he.write_of_untouched (h.untouched hm)

theorem Does.congr (h : L.Does ops ms)
    (hget : ∀ s k, L.cell k ≠ none → (Map.write s ops').get k = (Map.write s ops).get k)
    (hframe : ∀ op ∈ ops', L.cell op.key = none ∨ op ∈ ops) : L.Does ops' ms where
  nodup := h.nodup
  frame op hop c hc := by
    rcases hframe op hop with hnone | hmem
    · rw [hnone] at hc
      cases hc
    · exact h.frame op hmem c hc
  moves m hm s e he hsrc k hk := by
    rw [hget s k (by simp [hk])]
    exact h.moves m hm s e he hsrc k hk

theorem Models.write [DecidableEq C] (h : L.Models s A) (hdoes : L.Does ops ms)
    (hfits : L.Fits A ms) : L.Models (s.write ops) (A.moves ms) := by
  intro c
  by_cases hc : c ∈ ms.map Move.cell
  · obtain ⟨m, hm, rfl⟩ := mem_map.1 hc
    rw [Map.get_moves_of_mem hdoes.nodup hm]
    exact hdoes.moves m hm s _ (h m.cell) (hfits m hm)
  · rw [Map.get_unmoved hc]
    exact (h c).write_of_untouched (hdoes.untouched hc)

/-- The moves of part of the cells. -/
theorem Does.restrict (h : L.Does ops ms) (T : C → Bool) :
    (L.restrict T).Does ops (ms.filter fun m => T m.cell) where
  nodup := h.nodup.sublist (filter_sublist.map _)
  frame op hop c hc := by
    obtain ⟨hcell, hT⟩ := restrict_cell.1 hc
    obtain ⟨m, hm, rfl⟩ := mem_map.1 (h.frame op hop c hcell)
    exact mem_map_of_mem (mem_filter.2 ⟨hm, hT⟩)
  moves m hm s e he hsrc := by
    obtain ⟨hm, hT⟩ := mem_filter.1 hm
    rw [Holds.restrict_iff hT] at he ⊢
    exact h.moves m hm s e he hsrc

end Layout

/-! ## Counters -/

/-- What a number is read as is what was written. -/
class LawfulNum (V : Type*) [Num V] : Prop where
  read_ofInt : ∀ n : Int, Num.read (some (Num.ofInt n : V)) = n

/-- What the operation adds under `k`. -/
def Op.adds [DecidableEq K] (k : K) : Op K V → Int
  | .merge k' d => if k' = k then d else 0
  | _ => 0

/-- What the batch adds under `k`. -/
def delta [DecidableEq K] (ops : List (Op K V)) (k : K) : Int := (ops.map (Op.adds k)).sum

section Delta

variable [DecidableEq K]

@[simp] theorem delta_nil (k : K) : delta ([] : List (Op K V)) k = 0 := rfl

@[simp] theorem delta_cons (op : Op K V) (ops : List (Op K V)) (k : K) :
    delta (op :: ops) k = op.adds k + delta ops k := by
  simp [delta]

@[simp] theorem delta_append (ops ops' : List (Op K V)) (k : K) :
    delta (ops ++ ops') k = delta ops k + delta ops' k := by
  simp [delta]

variable {ops : List (Op K V)} {k : K}

theorem delta_eq_zero (h : ∀ op ∈ ops, op.key = k → op.merges = false) : delta ops k = 0 := by
  induction ops with
  | nil => rfl
  | cons op ops ih =>
    obtain ⟨hop, hrest⟩ := forall_mem_cons.1 h
    rw [delta_cons, ih hrest]
    cases op with
    | put | delete => rfl
    | merge k' =>
      have hne : k' ≠ k := fun he => Bool.noConfusion (hop he)
      simp [Op.adds, hne]

variable [Num V] [LawfulNum V]

/-- A number only added to reads as what it was plus what the batch adds. -/
theorem Map.read_write (s : Map K V) (h : ∀ op ∈ ops, op.key = k → op.merges = true) :
    Num.read ((s.write ops).get k) = Num.read (s.get k) + delta ops k := by
  induction ops generalizing s with
  | nil => simp
  | cons op ops ih =>
    obtain ⟨hop, hrest⟩ := forall_mem_cons.1 h
    rw [Map.write_cons, ih _ hrest, delta_cons]
    by_cases hkey : op.key = k
    · cases op with
      | put | delete => exact absurd (hop hkey) Bool.false_ne_true
      | merge =>
        subst hkey
        simp only [Op.key, Map.get_apply_merge, if_true, LawfulNum.read_ofInt, Op.adds]
        omega
    · rw [Map.get_apply_of_ne s hkey]
      have hzero : op.adds k = 0 := by
        cases op with
        | put | delete => rfl
        | merge k' =>
          have hne : k' ≠ k := hkey
          simp [Op.adds, hne]
      omega

/-- A number set first and then only added to reads as what was set plus what the batch adds. -/
theorem Map.read_write_split (s : Map K V) {before after : List (Op K V)}
    (hbefore : ∀ op ∈ before, op.key = k → op.merges = false)
    (hafter : ∀ op ∈ after, op.key = k → op.merges = true) :
    Num.read ((s.write (before ++ after)).get k) =
      Num.read ((s.write ((before ++ after).filter fun op => decide (op.key = k) && !op.merges)).get
        k) + delta (before ++ after) k := by
  have hsets : before.filter (fun op => decide (op.key = k)) =
      before.filter fun op => decide (op.key = k) && !op.merges := by
    refine filter_congr fun op hop => ?_
    by_cases hkey : op.key = k
    · simp [hkey, hbefore op hop hkey]
    · simp [hkey]
  have hadds : after.filter (fun op => decide (op.key = k) && !op.merges) = [] := by
    refine filter_eq_nil_iff.2 fun op hop => ?_
    by_cases hkey : op.key = k
    · simp [hafter op hop hkey]
    · simp [hkey]
  rw [Map.write_append, Map.read_write _ hafter, filter_append, hadds, append_nil, ← hsets,
    ← Map.get_write_filter, delta_append, delta_eq_zero hbefore, zero_add]

end Delta

namespace Layout

variable [DecidableEq K] [DecidableEq C] [Num V] [LawfulNum V] {L : Layout K V C E O}
  {counter : X → K} {w : X → C → E → Int} {s : Map K V} {A : Map C E} {ops ops' : List (Op K V)}
  {ms ms' : List (Move C E O)}

/-- Every counter is the sum of what the cells weigh under it. -/
def Counted (counter : X → K) (w : X → C → E → Int) (s : Map K V) (A : Map C E) : Prop :=
  ∀ x, Num.read (s.get (counter x)) = A.total (w x)

/-- The batch adds to every counter what its moves change. -/
def Balanced (counter : X → K) (w : X → C → E → Int) (A : Map C E) (ops : List (Op K V))
    (ms : List (Move C E O)) : Prop :=
  ∀ x, delta ops (counter x) =
    (ms.map fun m => weigh (w x) m.cell (m.upd (A.get m.cell)) - weigh (w x) m.cell
      (A.get m.cell)).sum

omit [Num V] [LawfulNum V] in
theorem Balanced.append (h : Balanced counter w A ops ms) (h' : Balanced counter w A ops' ms') :
    Balanced counter w A (ops ++ ops') (ms ++ ms') := by
  intro x
  rw [delta_append, h x, h' x, map_append, sum_append]

omit [Num V] [LawfulNum V] in
theorem Balanced.nil : Balanced counter w A ([] : List (Op K V)) ([] : List (Move C E O)) :=
  fun _ => rfl

omit [Num V] [LawfulNum V] in
theorem Balanced.flatMap {α : Type*} {xs : List α} {ops : α → List (Op K V)}
    {ms : α → List (Move C E O)} (h : ∀ x ∈ xs, Balanced counter w A (ops x) (ms x)) :
    Balanced counter w A (xs.flatMap ops) (xs.flatMap ms) := by
  induction xs with
  | nil => exact Balanced.nil
  | cons x xs ih =>
    obtain ⟨hx, hxs⟩ := forall_mem_cons.1 h
    rw [flatMap_cons, flatMap_cons]
    exact hx.append (ih hxs)

omit [Num V] [LawfulNum V] in
/-- Only the cells that are moved matter. -/
theorem Balanced.congr {A' : Map C E} (h : Balanced counter w A ops ms)
    (hsame : ∀ m ∈ ms, A'.get m.cell = A.get m.cell) : Balanced counter w A' ops ms := by
  intro x
  rw [h x]
  congr 1
  refine map_congr_left fun m hm => ?_
  rw [hsame m hm]

theorem Counted.write (h : Counted counter w s A) (hmerges : ∀ x, ∀ op ∈ ops, op.key = counter x →
      op.merges = true) (hbal : Balanced counter w A ops ms) (hnodup : (ms.map Move.cell).Nodup) :
    Counted counter w (s.write ops) (A.moves ms) := by
  intro x
  rw [Map.read_write s (hmerges x), h x, Map.total_moves _ hnodup, hbal x]

end Layout

end KV
