import Mathlib.Algebra.Order.Group.Int

set_option autoImplicit false

/-! # Counters with a threshold

A counter update of an ETS table may carry a threshold and a value to fall back to. Which side of
the threshold counts depends on the sign of the increment: a negative increment falls back when the
result is *below* the threshold, any other one, zero included, when it is *above*. Subtracting with
a floor at zero (`floored`) is therefore not what it looks like for the amount zero, which empties
the counter. -/

namespace Counter

/-- `{Pos, Incr, Threshold, SetValue}` of `ets:update_counter`. -/
def update (incr threshold setValue v : Int) : Int :=
  if (0 ≤ incr ∧ threshold < v + incr) ∨ (incr < 0 ∧ v + incr < threshold) then setValue
    else v + incr

/-- An amount is taken off, with threshold and fallback zero. -/
def floored (amount v : Int) : Int := update (-amount) 0 0 v

-- Nothing is taken off, and the counter is emptied.
example : floored 0 90 = 0 := by decide

/-- Taking off no more than there is, and not nothing unless there is nothing. -/
theorem floored_of_le {amount v : Int} (h0 : 0 ≤ amount) (hle : amount ≤ v)
    (hzero : amount = 0 → v = 0) : floored amount v = v - amount := by
  unfold floored update
  rw [if_neg]
  · omega
  · rintro (⟨h, hlt⟩ | ⟨-, hlt⟩)
    · have := hzero (by omega)
      omega
    · omega

end Counter
