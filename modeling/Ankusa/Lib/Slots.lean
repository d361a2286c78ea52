import Mathlib.Algebra.BigOperators.Group.List.Basic
import Mathlib.Algebra.GroupWithZero.Nat
import Mathlib.Data.List.Nodup

set_option autoImplicit false

/-! # Processes in slots

The processes of a concurrent system as a list, one of which is picked by its index, replaced or
taken out. What does not depend on their order is read off the permutation that brings the picked
one to the front; `total` adds up a weight over all of them. -/

namespace Slots

variable {α : Type} {xs ys : List α} {i : Nat} {x : α}

open List

theorem perm_eraseIdx (h : xs[i]? = some x) : xs.Perm (x :: xs.eraseIdx i) := by
  obtain ⟨hi, rfl⟩ := List.getElem?_eq_some_iff.1 h
  exact (List.getElem_cons_eraseIdx_perm hi).symm

theorem perm_set (h : xs[i]? = some x) (y : α) : (xs.set i y).Perm (y :: xs.eraseIdx i) := by
  obtain ⟨hi, -⟩ := List.getElem?_eq_some_iff.1 h
  exact List.set_perm_cons_eraseIdx hi y

/-- The sum of a weight. -/
def total (w : α → Nat) (xs : List α) : Nat := (xs.map w).sum

variable (w : α → Nat)

@[simp] theorem total_nil : total w [] = 0 := rfl

@[simp] theorem total_cons (x : α) (xs : List α) : total w (x :: xs) = w x + total w xs := sum_cons

@[simp] theorem total_append (xs ys : List α) : total w (xs ++ ys) = total w xs + total w ys := by
  rw [total, map_append, sum_append]
  rfl

theorem total_perm (h : xs.Perm ys) : total w xs = total w ys := (h.map w).sum_eq

theorem total_eraseIdx (h : xs[i]? = some x) : total w (xs.eraseIdx i) + w x = total w xs := by
  rw [total_perm w (perm_eraseIdx h), total_cons, Nat.add_comm]

theorem total_set (h : xs[i]? = some x) (y : α) :
    total w (xs.set i y) + w x = total w xs + w y := by
  rw [total_perm w (perm_set h y), total_cons, ← total_eraseIdx w h]
  omega

theorem total_filter (p : α → Bool) (xs : List α) :
    total w (xs.filter p) + total w (xs.filter fun x => !p x) = total w xs := by
  rw [← total_append, total_perm w (filter_append_perm p xs)]

theorem total_map {β : Type} (w : β → Nat) (f : α → β) (xs : List α) :
    total w (xs.map f) = total (fun x => w (f x)) xs := by
  rw [total, map_map]
  rfl

theorem total_sublist (h : xs.Sublist ys) : total w xs ≤ total w ys := by
  induction h with
  | slnil => exact Nat.le_refl _
  | cons y _ ih => exact Nat.le_trans ih (Nat.le_add_left _ _)
  | cons_cons y _ ih => exact Nat.add_le_add_left ih _

theorem total_le_total {w w' : α → Nat} (h : ∀ x, w x ≤ w' x) (xs : List α) :
    total w xs ≤ total w' xs := by
  induction xs with
  | nil => exact Nat.le_refl _
  | cons x xs ih => exact Nat.add_le_add (h x) ih

end Slots
