import Mathlib.Data.List.AList
import Mathlib.Data.List.Induction

set_option autoImplicit false

/-! # A key-value store written in atomic batches

The store is a finite map (`AList`), an operation puts, deletes or adds to the number under one key,
and a batch is applied operation by operation. Every lemma about a batch reduces to what it does
at one key: `get_untouched` when no operation is on the key, `get_write_put` and
`get_write_delete` when the operations on it all say the same. -/

namespace KV

open List AList

/-- The values that hold a number: how a merge operand reads the old value and writes the new. -/
class Num (V : Type*) where
  read : Option V → Int
  ofInt : Int → V

variable {K V : Type*} [DecidableEq K]

/-- One operation of a batch. -/
inductive Op (K V : Type*) where
  | put (k : K) (v : V)
  | delete (k : K)
  | merge (k : K) (d : Int)
  deriving DecidableEq, Repr

/-- The key an operation is on. -/
def Op.key : Op K V → K
  | .put k _ => k
  | .delete k => k
  | .merge k _ => k

/-- Whether an operation leaves something under its key. -/
def Op.creates : Op K V → Bool
  | .delete _ => false
  | _ => true

/-- Whether an operation adds to a number. -/
def Op.merges : Op K V → Bool
  | .merge _ _ => true
  | _ => false

section

omit [DecidableEq K]

@[simp] theorem Op.key_put (k : K) (v : V) : (put k v).key = k := rfl

@[simp] theorem Op.key_delete (k : K) : (delete k : Op K V).key = k := rfl

@[simp] theorem Op.key_merge (k : K) (d : Int) : (merge k d : Op K V).key = k := rfl

theorem Op.eq_put {op : Op K V} (hc : op.creates = true) (hm : op.merges = false) :
    ∃ v, op = .put op.key v := by
  cases op with
  | put k v => exact ⟨v, rfl⟩
  | delete => cases hc
  | merge => cases hm

end

/-- A finite map from keys to values. -/
abbrev Map (K V : Type*) := AList (fun _ : K => V)

/-- The value under `k`. -/
def Map.get (s : Map K V) (k : K) : Option V := s.lookup k

variable [Num V]

/-- Apply one operation. -/
def Map.apply (s : Map K V) : Op K V → Map K V
  | .put k v => s.insert k v
  | .delete k => s.erase k
  | .merge k d => s.insert k (Num.ofInt (Num.read (s.get k) + d))

/-- Apply a batch, first operation first. -/
def Map.write (s : Map K V) (ops : List (Op K V)) : Map K V := ops.foldl Map.apply s

@[simp] theorem Map.write_nil (s : Map K V) : s.write [] = s := rfl

@[simp] theorem Map.write_cons (s : Map K V) (op : Op K V) (ops : List (Op K V)) :
    s.write (op :: ops) = (s.apply op).write ops := rfl

theorem Map.write_append (s : Map K V) (ops ops' : List (Op K V)) :
    s.write (ops ++ ops') = (s.write ops).write ops' := foldl_append

omit [DecidableEq K] [Num V] in
@[simp] theorem Map.get_empty [DecidableEq K] (k : K) : Map.get (∅ : Map K V) k = none :=
  lookup_empty k

theorem Map.get_apply_put (s : Map K V) (k k' : K) (v : V) :
    (s.apply (.put k v)).get k' = if k' = k then some v else s.get k' := by
  change (s.insert k v).lookup k' = _
  split
  · next h => subst h; exact lookup_insert s
  · next h => exact lookup_insert_ne h

theorem Map.get_apply_delete (s : Map K V) (k k' : K) :
    (s.apply (.delete k)).get k' = if k' = k then none else s.get k' := by
  change (s.erase k).lookup k' = _
  split
  · next h => subst h; exact lookup_erase k' s
  · next h => exact lookup_erase_ne h

theorem Map.get_apply_merge (s : Map K V) (k k' : K) (d : Int) : (s.apply (.merge k d)).get k' =
      if k' = k then some (Num.ofInt (Num.read (s.get k) + d)) else s.get k' := by
  change (s.insert k _).lookup k' = _
  split
  · next h => subst h; exact lookup_insert s
  · next h => exact lookup_insert_ne h

variable {k : K} {ops : List (Op K V)} {s : Map K V} {v : V}

open Map

/-- An operation on another key changes nothing here. -/
theorem Map.get_apply_of_ne (s : Map K V) {op : Op K V} (h : op.key ≠ k) :
    (s.apply op).get k = s.get k := by
  cases op with
  | put => rw [get_apply_put, if_neg fun he => h he.symm]
  | delete => rw [get_apply_delete, if_neg fun he => h he.symm]
  | merge => rw [get_apply_merge, if_neg fun he => h he.symm]

theorem Map.get_untouched (s : Map K V) (h : ∀ op ∈ ops, op.key ≠ k) :
    (s.write ops).get k = s.get k := by
  induction ops generalizing s with
  | nil => rfl
  | cons op ops ih =>
    rw [write_cons, ih _ (fun o ho => h o (mem_cons_of_mem _ ho))]
    exact get_apply_of_ne s (h op mem_cons_self)

theorem Map.get_write_congr {t : Map K V} (h : s.get k = t.get k) (ops : List (Op K V)) :
    (s.write ops).get k = (t.write ops).get k := by
  induction ops generalizing s t with
  | nil => exact h
  | cons op ops ih =>
    refine ih ?_
    cases op with
    | put => rw [get_apply_put, get_apply_put, h]
    | delete => rw [get_apply_delete, get_apply_delete, h]
    | merge =>
      rw [get_apply_merge, get_apply_merge]
      split
      · next hk => rw [← hk, h]
      · exact h

theorem Map.get_write_filter (s : Map K V) (ops : List (Op K V)) (k : K) :
    (s.write ops).get k = (s.write (ops.filter fun op => decide (op.key = k))).get k := by
  induction ops generalizing s with
  | nil => rfl
  | cons op ops ih =>
    by_cases h : op.key = k
    · rw [filter_cons_of_pos (by simpa using h), write_cons, write_cons, ih]
    · rw [filter_cons_of_neg (by simpa using h), write_cons, ← ih s]
      exact get_write_congr (get_apply_of_ne s h) ops

/-- What a batch leaves under a key is what its last operation on that key leaves. -/
theorem Map.get_write_cases (s : Map K V) (ops : List (Op K V)) (k : K) :
    (∀ op ∈ ops, op.key ≠ k) ∧ (s.write ops).get k = s.get k ∨
      ∃ t : Map K V, ∃ op ∈ ops, op.key = k ∧ (s.write ops).get k = (t.apply op).get k := by
  induction ops using List.reverseRecOn with
  | nil => exact .inl ⟨forall_mem_nil _, rfl⟩
  | append_singleton ops op ih =>
    rw [write_append, write_cons, write_nil]
    by_cases hk : op.key = k
    · exact .inr ⟨_, op, by simp, hk, rfl⟩
    · rw [get_apply_of_ne _ hk]
      rcases ih with ⟨hnone, hsame⟩ | ⟨t, o, ho, hget⟩
      · exact .inl ⟨forall_mem_append.2 ⟨hnone, by simpa using hk⟩, hsame⟩
      · exact .inr ⟨t, o, mem_append_left _ ho, hget⟩

theorem Map.get_write_ne_none
    (h : (s.write ops).get k ≠ none) :
    s.get k ≠ none ∨ ∃ op ∈ ops, op.creates = true ∧ op.key = k := by
  rcases s.get_write_cases ops k with ⟨-, hsame⟩ | ⟨t, op, hop, hk, hget⟩
  · exact .inl (hsame ▸ h)
  refine .inr ⟨op, hop, ?_, hk⟩
  cases op with
  | put | merge => rfl
  | delete k' =>
    rw [hget, get_apply_delete, if_pos (show k = k' from hk.symm)] at h
    exact absurd rfl h

/-- A value that no merge of a batch makes is the old one or one the batch puts. -/
theorem Map.get_write_of_merges (hv : ∀ d, .merge k d ∈ ops → ∀ n, v ≠ Num.ofInt n)
    (h : (s.write ops).get k = some v) : s.get k = some v ∨ .put k v ∈ ops := by
  rcases s.get_write_cases ops k with ⟨-, hsame⟩ | ⟨t, op, hop, hk, hget⟩
  · exact .inl (hsame ▸ h)
  rw [hget] at h
  cases op with
  | put k' =>
    obtain rfl : k' = k := hk
    rw [get_apply_put, if_pos rfl] at h
    exact .inr (Option.some.inj h ▸ hop)
  | merge k' d =>
    obtain rfl : k' = k := hk
    rw [get_apply_merge, if_pos rfl] at h
    exact absurd (Option.some.inj h).symm (hv d hop _)
  | delete k' =>
    rw [get_apply_delete, if_pos (show k = k' from hk.symm)] at h
    cases h

theorem Map.get_write_eq_some (hput : ∀ op ∈ ops, op.key = k → op.merges = false)
    (h : (s.write ops).get k = some v) : s.get k = some v ∨ .put k v ∈ ops :=
  get_write_of_merges (fun _ hd => nomatch hput _ hd rfl) h

theorem Map.get_write_of_not_num
    (hv : ∀ n, v ≠ Num.ofInt n) (h : (s.write ops).get k = some v) :
    s.get k = some v ∨ .put k v ∈ ops :=
  get_write_of_merges (fun _ _ => hv) h

omit [Num V] in
theorem Map.get_of_mem_entries {s : Map K V} {k : K} {v : V} (h : ⟨k, v⟩ ∈ s.entries) :
    s.get k = some v := mem_lookup_iff.2 h

theorem Map.get_write_of_puts (s : Map K V)
    (hmem : ∃ op ∈ ops, op.key = k) (h : ∀ op ∈ ops, op.key = k → ∃ v, op = .put k v) :
    ∃ v, .put k v ∈ ops ∧ (s.write ops).get k = some v := by
  rcases s.get_write_cases ops k with ⟨hnone, -⟩ | ⟨t, op, hop, hk, hget⟩
  · obtain ⟨op, hop, hk⟩ := hmem
    exact absurd hk (hnone op hop)
  · obtain ⟨v, rfl⟩ := h op hop hk
    exact ⟨v, hop, by rw [hget, get_apply_put, if_pos rfl]⟩

theorem Map.get_write_put (s : Map K V)
    (hmem : .put k v ∈ ops) (h : ∀ op ∈ ops, op.key = k → op = .put k v) :
    (s.write ops).get k = some v := by
  obtain ⟨w, hw, hget⟩ := s.get_write_of_puts ⟨_, hmem, rfl⟩ fun op hop hk => ⟨v, h op hop hk⟩
  cases h _ hw rfl
  exact hget

theorem Map.get_write_delete (s : Map K V)
    (hmem : .delete k ∈ ops) (h : ∀ op ∈ ops, op.key = k → op = .delete k) :
    (s.write ops).get k = none := by
  rcases s.get_write_cases ops k with ⟨hnone, -⟩ | ⟨t, op, hop, hk, hget⟩
  · exact absurd rfl (hnone _ hmem)
  · rw [hget, h op hop hk, get_apply_delete, if_pos rfl]

end KV
