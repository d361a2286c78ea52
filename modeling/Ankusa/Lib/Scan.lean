import Mathlib.Data.List.TakeWhile
import Mathlib.Order.Lattice

set_option autoImplicit false

/-! # Scans of a log in key order

A job that pages through a log in the order of its keys remembers one key, the last one it has dealt
with. That this is enough rests on two facts: a prefix of the log holds every entry at or below any
key it holds (`mem_left_of_key_le`), and cutting the log at a ceiling keeps exactly the entries at
or below the ceiling (`mem_takeWhile_key_le`). -/

namespace Scan

open List

variable {α κ : Type*} [LinearOrder κ] {key : α → κ}

/-- The log holds its entries in the strict order of their keys. -/
def Sorted (key : α → κ) (log : List α) : Prop := log.Pairwise fun a b => key a < key b

instance (key : α → κ) (log : List α) : Decidable (Sorted key log) :=
  inferInstanceAs (Decidable (log.Pairwise _))

variable {a b log : List α} {x y : α} {c : κ}

theorem Sorted.sublist (h : Sorted key b) (hab : List.Sublist a b) : Sorted key a :=
  List.Pairwise.sublist hab h

theorem Sorted.lt_of_append (h : Sorted key (a ++ b)) (hx : x ∈ a) (hy : y ∈ b) : key x < key y :=
  (pairwise_append.1 h).2.2 x hx y hy

theorem Sorted.eq_of_key_eq (h : Sorted key log) (hx : x ∈ log) (hy : y ∈ log)
    (hkey : key x = key y) : x = y := by
  induction log with
  | nil => cases hx
  | cons a log ih =>
    obtain ⟨hhead, htail⟩ := pairwise_cons.1 h
    rcases mem_cons.1 hx with hxa | hxl <;> rcases mem_cons.1 hy with hya | hyl
    · exact hxa.trans hya.symm
    · exact absurd (hxa ▸ hkey) (hhead y hyl).ne
    · exact absurd (hya ▸ hkey) (hhead x hxl).ne'
    · exact ih htail hxl hyl

theorem mem_left_of_key_le (h : Sorted key (a ++ b)) (hx : x ∈ a ++ b) (hy : y ∈ a)
    (hle : key x ≤ key y) : x ∈ a := by
  rcases mem_append.1 hx with hxa | hxb
  · exact hxa
  · exact absurd hle (not_le.2 (h.lt_of_append hy hxb))

theorem mem_takeWhile_key_le (h : Sorted key log) :
    x ∈ log.takeWhile (fun a => decide (key a ≤ c)) ↔ x ∈ log ∧ key x ≤ c := by
  constructor
  · intro hx
    exact ⟨(takeWhile_sublist _).subset hx, by simpa using mem_takeWhile_imp hx⟩
  rintro ⟨hx, hle⟩
  induction log with
  | nil => cases hx
  | cons a log ih =>
    obtain ⟨hhead, htail⟩ := pairwise_cons.1 h
    -- the head is at or below `x`, so the scan goes past it
    have ha : key a ≤ c := by
      rcases mem_cons.1 hx with rfl | hx
      · exact hle
      · exact (hhead x hx).le.trans hle
    rw [takeWhile_cons_of_pos (by simpa using ha)]
    rcases mem_cons.1 hx with rfl | hx
    · exact mem_cons_self
    · exact mem_cons_of_mem _ (ih htail hx)

/-- A scan that was cut at the ceiling before its end has read everything at or below it. -/
theorem mem_of_key_le_of_cut (h : Sorted key (a ++ b))
    (hcut : (a.takeWhile fun y => decide (key y ≤ c)).length < a.length) (hx : x ∈ a ++ b)
    (hle : key x ≤ c) : x ∈ a := by
  have hne : a.dropWhile (fun y => decide (key y ≤ c)) ≠ [] := by
    intro hnil
    have := congrArg List.length
      (takeWhile_append_dropWhile (p := fun y => decide (key y ≤ c)) (l := a))
    simp only [hnil, append_nil] at this
    omega
  have hmem := head_mem hne
  have hnot := head_dropWhile_not (fun y => decide (key y ≤ c)) hne
  refine mem_left_of_key_le h hx ((dropWhile_sublist _).subset hmem) ?_
  exact hle.trans (le_of_lt (by simpa using hnot))

end Scan
