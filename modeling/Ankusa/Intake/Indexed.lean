import Ankusa.Intake.Pending
import Ankusa.Lib.Run

set_option autoImplicit false

/-! # The indices of the pending set describe its entries

`Indexed` says what the counters and the by-id, by-key, schedule and held indices of the pending set
have to hold for its entries, `Batched` the same of the batches kept for a missing local half. Every
operation changes one entry at a time, so each is one use of `Indexed.change`: what the new entry
adds to a counter or an index, less what the old one had there. -/

namespace Ankusa.Pending

open KV Option Map

/-! ## The invariant -/

/-- The position a carried record that is only in the log is held at. -/
def Entry.holds (e : Entry) : Option Nat :=
  if e.nextAt.isSome ∧ e.log = .ok ∧ e.local_ = .missing then e.position else none

/-- The counters and indices describe the entries. -/
structure Indexed (t : Table) : Prop where
  records : t.records = t.entries.total fun _ _ => 1
  bytes : t.bytes = t.entries.total fun _ e => (e.size : Int)
  carried : t.carried = t.entries.total fun _ e => if e.nextAt.isSome then 1 else 0
  stuck : t.stuck = t.entries.total fun _ e => if e.stuck then 1 else 0
  distinct : ∀ q q' e e', t.entries.get q = some e → t.entries.get q' = some e' →
    e.id = e'.id → q = q'
  ids : ∀ id q, t.ids.get id = some q ↔
    ∃ e, t.entries.get q = some e ∧ e.id = id ∧ e.nextAt.isSome
  keys : ∀ k q, t.keys.get k = some q ↔ ∃ e, t.entries.get q = some e ∧ e.triple = some k
  sched : ∀ n q, (n, q) ∈ t.sched ↔ ∃ e, t.entries.get q = some e ∧ e.nextAt = some n
  held : ∀ p q, (p, q) ∈ t.held ↔ ∃ e, t.entries.get q = some e ∧ e.holds = some p

/-- A carried entry of the batch whose local half is missing. -/
def Table.Lacks (t : Table) (b q : Nat) : Prop :=
  ∃ e, t.entries.get q = some e ∧ e.batch = b ∧ e.nextAt.isSome ∧ e.local_ = .missing

/-- A batch is kept exactly while carried entries of it lack their local half, and names them. -/
structure Batched (t : Table) : Prop where
  rows : ∀ b q, (∃ plan, t.batches.get b = some plan ∧ q ∈ plan.seqs) ↔ t.Lacks b q
  nonempty : ∀ b plan, t.batches.get b = some plan → plan.seqs ≠ []

variable {t u : Table} {q : Nat} {e : Entry}

theorem Indexed.empty : Indexed .empty := by
  constructor <;> simp [Table.empty, Map.total]

theorem Batched.empty : Batched .empty := by
  constructor <;> simp [Table.empty, Table.Lacks]

/-- What a table has in an index for one seq is replaced, and nothing else. -/
def Swaps {α : Type} (had has : α → Nat → Prop) (q : Nat) (new : α → Prop) : Prop :=
  ∀ a q', has a q' ↔ q' ≠ q ∧ had a q' ∨ q' = q ∧ new a

variable {α : Type} {had : α → Nat → Prop}

/-- An index that described the entries describes them after the swap: a row for another seq is
    about an entry that did not change. -/
theorem Swaps.describes {has : α → Nat → Prop} {new : Option Entry}
    {P : α → Entry → Prop} (hswap : Swaps had has q fun a => ∃ e, new = some e ∧ P a e)
    (hentries : u.entries = t.entries.set q new)
    (h : ∀ a q', had a q' ↔ ∃ e, t.entries.get q' = some e ∧ P a e) (a : α) (q' : Nat) :
    has a q' ↔ ∃ e, u.entries.get q' = some e ∧ P a e := by
  rw [hswap a q', h, hentries, get_set]
  by_cases hq : q' = q <;> simp [hq]

/-- One entry changes: the counters move by the difference, the indices swap what they have for
    it. -/
theorem Indexed.change (h : Indexed t) (new : Option Entry)
    (hentries : u.entries = t.entries.set q new)
    (hrecords : u.records = t.records + (weigh (fun _ (_ : Entry) => 1) q new -
      weigh (fun _ _ => 1) q (t.entries.get q)))
    (hbytes : u.bytes = t.bytes + (weigh (fun _ (e : Entry) => (e.size : Int)) q new -
      weigh (fun _ e => (e.size : Int)) q (t.entries.get q)))
    (hcarried : u.carried = t.carried +
      (weigh (fun _ (e : Entry) => if e.nextAt.isSome then 1 else 0) q new -
      weigh (fun _ e => if e.nextAt.isSome then 1 else 0) q (t.entries.get q)))
    (hstuck : u.stuck = t.stuck + (weigh (fun _ (e : Entry) => if e.stuck then 1 else 0) q new -
      weigh (fun _ e => if e.stuck then 1 else 0) q (t.entries.get q)))
    (hdistinct : ∀ e, new = some e → ∀ q' e', q' ≠ q → t.entries.get q' = some e' → e.id ≠ e'.id)
    (hids : Swaps (fun id q' => t.ids.get id = some q') (fun id q' => u.ids.get id = some q') q
      fun id => ∃ e, new = some e ∧ e.id = id ∧ e.nextAt.isSome)
    (hkeys : Swaps (fun k q' => t.keys.get k = some q') (fun k q' => u.keys.get k = some q') q
      fun k => ∃ e, new = some e ∧ e.triple = some k)
    (hsched : Swaps (fun n q' => (n, q') ∈ t.sched) (fun n q' => (n, q') ∈ u.sched) q
      fun n => ∃ e, new = some e ∧ e.nextAt = some n)
    (hheld : Swaps (fun p q' => (p, q') ∈ t.held) (fun p q' => (p, q') ∈ u.held) q
      fun p => ∃ e, new = some e ∧ e.holds = some p) : Indexed u := by
  refine ⟨?_, ?_, ?_, ?_, ?_, hids.describes hentries h.ids, hkeys.describes hentries h.keys,
    hsched.describes hentries h.sched, hheld.describes hentries h.held⟩
  · rw [hrecords, hentries, total_set, h.records]
  · rw [hbytes, hentries, total_set, h.bytes]
  · rw [hcarried, hentries, total_set, h.carried]
  · rw [hstuck, hentries, total_set, h.stuck]
  · intro q₁ q₂ e₁ e₂ h₁ h₂ hid
    rw [hentries, get_set] at h₁ h₂
    by_cases hq₁ : q₁ = q <;> by_cases hq₂ : q₂ = q
    · rw [hq₁, hq₂]
    · rw [if_pos hq₁] at h₁
      rw [if_neg hq₂] at h₂
      exact absurd hid (hdistinct e₁ h₁ q₂ e₂ hq₂ h₂)
    · rw [if_neg hq₁] at h₁
      rw [if_pos hq₂] at h₂
      exact absurd hid.symm (hdistinct e₂ h₂ q₁ e₁ hq₁ h₁)
    · rw [if_neg hq₁] at h₁
      rw [if_neg hq₂] at h₂
      exact h.distinct q₁ q₂ e₁ e₂ h₁ h₂ hid

/-! ## What the indices know of one entry -/

section

variable (h : Indexed t) (hq : t.entries.get q = some e)
include h hq

theorem Indexed.ids_self (id : String) : t.ids.get id = some q ↔ e.id = id ∧ e.nextAt.isSome := by
  rw [h.ids]
  simp [hq]

theorem Indexed.keys_self (k : Triple) : t.keys.get k = some q ↔ e.triple = some k := by
  rw [h.keys]
  simp [hq]

theorem Indexed.sched_self (n : Ms) : (n, q) ∈ t.sched ↔ e.nextAt = some n := by
  rw [h.sched]
  simp [hq]

theorem Indexed.held_self (p : Nat) : (p, q) ∈ t.held ↔ e.holds = some p := by
  rw [h.held]
  simp [hq]

variable {q' : Nat}

theorem Indexed.ids_other (hne : q' ≠ q) : t.ids.get e.id ≠ some q' := by
  intro hid
  obtain ⟨e', he', hsame, _⟩ := (h.ids e.id q').1 hid
  exact hne (h.distinct q' q e' e he' hq hsame)

end

theorem Swaps.refl {new : α → Prop} (h : ∀ a, had a q ↔ new a) : Swaps had had q new := by
  intro a q'
  by_cases hq : q' = q
  · subst hq
    simp [h a]
  · simp [hq]

/-! ## The operations keep it -/

/-- An entry keeps its id, size and triple: only the indices of carried entries can change. -/
theorem Indexed.revise (h : Indexed t) (e' : Entry) (hq : t.entries.get q = some e)
    (hentries : u.entries = t.entries.set q (some e'))
    (hkept : e'.id = e.id ∧ e'.size = e.size ∧ e'.triple = e.triple)
    (hsame : u.records = t.records ∧ u.bytes = t.bytes ∧ u.keys = t.keys)
    (hcarried : u.carried = t.carried + ((if e'.nextAt.isSome then 1 else 0) -
      (if e.nextAt.isSome then 1 else 0)))
    (hstuck : u.stuck = t.stuck + ((if e'.stuck then 1 else 0) - (if e.stuck then 1 else 0)))
    (hids : Swaps (fun id q' => t.ids.get id = some q') (fun id q' => u.ids.get id = some q') q
      fun id => e.id = id ∧ e'.nextAt.isSome)
    (hsched : Swaps (fun n q' => (n, q') ∈ t.sched) (fun n q' => (n, q') ∈ u.sched) q
      fun n => e'.nextAt = some n) (hheld : Swaps (fun p q' => (p, q') ∈ t.held)
      (fun p q' => (p, q') ∈ u.held) q fun p => e'.holds = some p) : Indexed u := by
  obtain ⟨hid, hsize, htriple⟩ := hkept
  obtain ⟨hrecords, hbytes, hkeys⟩ := hsame
  refine h.change (some e') hentries ?_ ?_ ?_ ?_ ?_ ?_ ?_ ?_ ?_
  · simp [hq, hrecords]
  · simp [hq, hbytes, hsize]
  · simp [hq, hcarried]
  · simp [hq, hstuck]
  · intro e₁ he₁ q₂ e₂ hne hq₂ hsame
    obtain rfl := some.inj he₁
    exact hne (h.distinct q₂ q e₂ e hq₂ hq (hsame.symm.trans hid))
  · simpa [hid] using hids
  · rw [hkeys]
    refine Swaps.refl fun k => ?_
    rw [h.keys_self hq]
    simp [htriple]
  · simpa using hsched
  · simpa using hheld

theorem Indexed.congr (h : Indexed t) (plans : Map Nat Plan) (p : Option Nat) :
    Indexed { t with batches := plans, confirmedMax := p } :=
  { h with }

theorem Indexed.bumpConfirmed (h : Indexed t) (p : Option Nat) : Indexed (t.bumpConfirmed p) := by
  cases p with
  | none => exact h
  | some => exact h.congr t.batches _

/-- A change of an entry that no counter or index shows. -/
theorem Indexed.update (h : Indexed t) {f : Entry → Entry}
    (hf : ∀ e, t.entries.get q = some e → (f e).id = e.id ∧ (f e).size = e.size ∧
      (f e).triple = e.triple ∧
      (f e).nextAt = e.nextAt ∧ (f e).stuck = e.stuck ∧ (f e).holds = e.holds) :
        Indexed (t.update q f) := by
  unfold Table.update
  cases hq : t.entries.get q with
  | none => exact h
  | some e =>
    obtain ⟨hid, hsize, htriple, hnext, hstuck, hholds⟩ := hf e hq
    refine h.revise (f e) hq rfl ⟨hid, hsize, htriple⟩ ⟨rfl, rfl, rfl⟩ ?_ ?_ ?_ ?_ ?_
    · simp [hnext]
    · simp [hstuck]
    · exact Swaps.refl fun id => by rw [h.ids_self hq, hnext]
    · exact Swaps.refl fun n => by rw [h.sched_self hq, hnext]
    · exact Swaps.refl fun p => by rw [h.held_self hq, hholds]

/-- A record whose seq, id and dedupe triple no pending entry has. -/
structure Rec.Fresh (t : Table) (r : Rec) : Prop where
  seq : t.entries.get r.seq = none
  id : ∀ q e, t.entries.get q = some e → e.id ≠ r.id
  triple : ∀ k, r.triple = some k → t.keys.get k = none

attribute [local simp] Rec.entry Entry.holds Table.enterOne

section

variable (h : Indexed t)
include h

variable {r : Rec}

theorem Indexed.enterOne (hr : r.Fresh t) (b : Nat) (now : Ms) : Indexed (t.enterOne b now r) := by
  have hnone := hr.seq
  refine h.change (some (r.entry b now)) rfl ?_ ?_ ?_ ?_ ?_ ?_ ?_ ?_ ?_
  · simp [hnone]
  · simp [hnone]
  · simp [hnone]
  · simp [hnone]
  · intro e he q' e' _ hq' hsame
    cases he
    exact hr.id q' e' hq' hsame.symm
  · refine Swaps.refl fun id => ?_
    rw [h.ids]
    simp [hnone]
  · intro k q'
    cases htriple : r.triple with
    | none =>
      have hold : t.keys.get k = some r.seq → False := fun hk => by
        obtain ⟨e, he, _⟩ := (h.keys k r.seq).1 hk
        rw [hnone] at he
        cases he
      by_cases hq : q' = r.seq
      · subst hq
        simpa [htriple] using hold
      · simp [htriple, hq]
    | some k₀ =>
      have hfree := hr.triple k₀ htriple
      simp only [Table.enterOne, htriple, get_set, Rec.entry]
      by_cases hk : k = k₀
      · subst hk
        grind
      have hold : t.keys.get k ≠ some r.seq := fun hk' => by
        obtain ⟨e, he, _⟩ := (h.keys k r.seq).1 hk'
        rw [hnone] at he
        cases he
      grind
  · refine Swaps.refl fun n => ?_
    rw [h.sched]
    simp [hnone]
  · refine Swaps.refl fun p => ?_
    rw [h.held]
    simp [hnone]

/-- An entry that holds no position leaves with its counts and index rows. -/
theorem Indexed.remove (hh : ∀ e, t.entries.get q = some e → e.holds = none) :
    Indexed (t.remove q) := by
  unfold Table.remove
  cases hq : t.entries.get q with
  | none => exact h
  | some e =>
    refine h.change none rfl ?_ ?_ ?_ ?_ ?_ ?_ ?_ ?_ ?_
    · simp [Table.forget, hq]; omega
    · simp [Table.forget, hq]; omega
    · cases hn : e.nextAt <;> simp [Table.forget, hq, hn]; omega
    · cases hs : e.stuck <;> simp [Table.forget, hq, hs]; omega
    · intro e' he'
      cases he'
    · intro id q'
      have hself := h.ids_self hq id
      have hother := fun (hne : q' ≠ q) => h.ids_other hq hne
      simp only [Table.forget, get_set]
      grind
    · intro k q'
      have hself := h.keys_self hq k
      cases htriple : e.triple with
      | none =>
        simp only [Table.forget, htriple]
        grind
      | some =>
        simp only [Table.forget, htriple, get_set]
        grind
    · intro n q'
      have hself := h.sched_self hq n
      cases hn : e.nextAt with
      | none =>
        simp only [Table.forget, hn]
        grind
      | some =>
        simp only [Table.forget, hn, Finset.mem_erase]
        grind
    · refine Swaps.refl fun p => ?_
      rw [h.held_self hq, hh e hq]
      simp

theorem Indexed.finish (q : Nat) : Indexed (t.finish q).1 := by
  unfold Table.finish
  cases hq : t.entries.get q with
  | none => exact h
  | some e =>
    by_cases hdone : e.local_ = .ok ∧ e.log = .ok
    · simp only [hdone, and_self, if_true]
      refine (h.remove fun e' he' => ?_).bumpConfirmed _
      obtain rfl := some.inj (hq.symm.trans he')
      simp [hdone.1]
    · simp only [hdone, if_false]
      exact h

/-- A batch's entry is carried: it gets its place in the indices of carried ones. -/
theorem Indexed.carryOne (o : Outcome) (now : Ms)
    (hnew : ∀ e, t.entries.get r.seq = some e → e.nextAt = none) :
    Indexed (t.carryOne o now r) := by
  unfold Table.carryOne
  cases hq : t.entries.get r.seq with
  | none => exact h
  | some e =>
    have hidle := hnew e hq
    refine h.revise ({ e with
      local_ := o.local_, log := o.log, position := o.position, nextAt := some now
      bin := if o.log = .missing then some r.bin else none }) hq rfl ⟨rfl, rfl, rfl⟩ ⟨rfl, rfl, rfl⟩
      ?_ ?_ ?_ ?_ ?_
    · simp [hidle]
    · simp
    · intro id q'
      have hself := h.ids_self hq id
      have hother := fun (hne : q' ≠ r.seq) => h.ids_other hq hne
      simp only [get_set]
      grind
    · intro n q'
      have hself := h.sched_self hq n
      grind
    · intro p q'
      have hself := h.held_self hq p
      have hold : e.holds = none := by simp [hidle]
      have hholds : ({ e with
          local_ := o.local_, log := o.log, position := o.position, nextAt := some now
          bin := if o.log = .missing then some r.bin else none } : Entry).holds = o.holds := by
        simp [Outcome.holds]
      cases ho : o.holds with
      | none =>
        simp only
        grind
      | some =>
        grind

theorem Indexed.reschedule (n : Ms)
    (hcarried : ∀ e, t.entries.get q = some e → e.nextAt.isSome) : Indexed (t.reschedule q n) := by
  unfold Table.reschedule
  cases hq : t.entries.get q with
  | none => exact h
  | some e =>
    obtain ⟨n₀, hn₀⟩ := isSome_iff_exists.1 (hcarried e hq)
    refine h.revise ({ e with nextAt := some n, attempts := e.attempts + 1 }) hq rfl
      ⟨rfl, rfl, rfl⟩ ⟨rfl, rfl, rfl⟩ ?_ ?_ ?_ ?_ ?_
    · simp [hn₀]
    · simp
    · exact Swaps.refl fun id => by rw [h.ids_self hq]; simp [hn₀]
    · intro m q'
      have hself := h.sched_self hq m
      grind
    · exact Swaps.refl fun p => by rw [h.held_self hq]; simp [hn₀]

theorem Indexed.markStuck (q : Nat) : Indexed (t.markStuck q).1 := by
  unfold Table.markStuck
  cases hq : t.entries.get q with
  | none => exact h
  | some e =>
    by_cases hs : e.stuck
    · simp only [hs, if_true]
      exact h
    simp only [hs, Table.update, hq]
    refine h.revise ({ e with stuck := true }) hq rfl ⟨rfl, rfl, rfl⟩ ⟨rfl, rfl, rfl⟩ ?_ ?_ ?_ ?_ ?_
    · simp
    · simp [hs]
    · exact Swaps.refl fun id => h.ids_self hq id
    · exact Swaps.refl fun n => h.sched_self hq n
    · exact Swaps.refl fun p => h.held_self hq p

/-- The local half of an entry is in: it is held at no position any more. -/
theorem Indexed.localOne (q : Nat) : Indexed (t.localOne q).1 := by
  unfold Table.localOne
  cases hq : t.entries.get q with
  | none => exact h
  | some e =>
    refine Indexed.finish ?_ q
    refine h.revise ({ e with local_ := .ok }) hq rfl ⟨rfl, rfl, rfl⟩ ⟨rfl, rfl, rfl⟩ ?_ ?_ ?_ ?_ ?_
    · simp
    · simp
    · exact Swaps.refl fun id => h.ids_self hq id
    · exact Swaps.refl fun n => h.sched_self hq n
    · intro p q'
      have hself := h.held_self hq p
      have hat : e.holds = some p → e.position = some p := by
        unfold Entry.holds
        split <;> simp
      have hnone : ({ e with local_ := .ok } : Entry).holds = none := by simp
      cases hp : e.position with
      | none =>
        simp only
        grind
      | some =>
        grind

theorem Indexed.localAll (seqs : List Nat) : Indexed (t.localAll seqs).1 := by
  induction seqs generalizing t with
  | nil => exact h
  | cons seq seqs ih => exact ih (h.localOne seq)

theorem Indexed.localDone (b : Nat) : Indexed (t.localDone b).1 := by
  unfold Table.localDone
  split
  · exact h
  · exact (h.congr _ t.confirmedMax).localAll _

theorem Indexed.logDone (p : Nat)
    (hlocal : ∀ e, t.entries.get q = some e → e.local_ = .ok) : Indexed (t.logDone q p).1 := by
  unfold Table.logDone
  cases hq : t.entries.get q with
  | none => exact h
  | some e =>
    have hok := hlocal e hq
    have hu := h.update (q := q) (f :=
      fun e => { e with log := .ok, bin := none, position := some p })
      fun e' he' => ⟨rfl, rfl, rfl, rfl, rfl, by simp [hlocal e' he']⟩
    refine Indexed.finish ?_ q
    simp only [Table.update, hq] at hu
    simpa [hok] using hu

end

end Ankusa.Pending
