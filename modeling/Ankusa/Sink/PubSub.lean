import Mathlib.Algebra.Group.Nat.Defs
import Mathlib.Data.List.Forall2
import Mathlib.Data.Nat.Log

set_option autoImplicit false

/-! # Isolating a refused message

`Sink.GooglePubSub.Batcher` publishes a batch in one request. A request the topic refuses as invalid
is split, its halves are published one after the other, and the splits of a batch are paid from one
budget (`send_isolates`). -/

namespace Ankusa.PubSub

open List

/-- The reply to a request: a `200` with the number of message ids in its body, if it has them, an
    `INVALID_ARGUMENT`, or any other error. -/
inductive Reply where
  | ok (ids : Option Nat)
  | invalid (message : String)
  | failed (reason : String)

/-- Why a message was not accepted. -/
inductive Reason where
  | permanent (message : String)
  | batchRejected (message : String)
  | unexpectedReply
  | failed (reason : String)

/-- What an entry of the batch is answered. -/
inductive Result where
  | ok
  | error (reason : Reason)

/-- What every message gets, or the refusal that a message is at fault for. -/
def outcome : Reply → Nat → Result ⊕ String
  | .ok ids, count => .inl (if ids = some count then .ok else .error .unexpectedReply)
  | .invalid message, count => if count = 0 then .inl .ok else .inr message
  | .failed reason, _ => .inl (.error (.failed reason))

/-- The results, the requests made and the splits left. -/
structure Sent (α : Type) where
  results : List Result
  requests : List (List α)
  budget : Nat

variable {α : Type}

/-- Publish a batch; one that is refused is split in two, within the budget. -/
def publish (post : List α → Reply) (items : List α) (budget : Nat) : Sent α :=
  match outcome (post items) items.length with
  | .inl result => ⟨items.map fun _ => result, [items], budget⟩
  | .inr message =>
    if items.length ≤ 1 then ⟨items.map fun _ => .error (.permanent message), [items], budget⟩
    else if budget = 0 then ⟨items.map fun _ => .error (.batchRejected message), [items], 0⟩
    else
      let left := publish post (items.take (items.length / 2)) (budget - 1)
      let right := publish post (items.drop (items.length / 2)) left.budget
      ⟨left.results ++ right.results, items :: (left.requests ++ right.requests), right.budget⟩
termination_by items.length
decreasing_by all_goals (simp; omega)

/-- The splits a batch of `n` messages may spend. -/
def splitBudget (n : Nat) : Nat := 2 * (Nat.clog 2 (max n 2) + 1)

/-- Publish a batch with the budget of its size. -/
def sendBatch (post : List α → Reply) (items : List α) : Sent α :=
  publish post items (splitBudget items.length)

/-- A topic that refuses the requests with a bad message, each with a text of its own, and accepts
    the others. -/
def refusing (bad : α → Bool) (message : List α → String) (items : List α) : Reply :=
  if items.any bad then .invalid (message items) else .ok (some items.length)

/-- What the results and the requests of a batch say: only bad messages are permanent failures, the
    accepted requests are parts of the batch in its order, each split makes two requests, and a
    single bad message is isolated with as many splits as the batch can be halved. -/
structure Isolates (bad : α → Bool) (items : List α) (budget : Nat) (p : Sent α) : Prop where
  permanent : Forall₂ (fun i r => ∀ message, r = .error (.permanent message) →
    bad i = true) items p.results
  accepted : (p.requests.filter fun request => !request.any bad).flatten.Sublist items
  spent : p.requests.length + 2 * p.budget = 1 + 2 * budget
  spared : items.countP bad = 1 → items.length ≤ 2 ^ budget →
    Forall₂ (fun i r => bad i = false → r = .ok) items p.results

variable {bad : α → Bool} {message : List α → String} {items : List α} {budget : Nat}

theorem outcome_refusing : outcome (refusing bad message items) items.length =
    if items.any bad then .inr (message items) else .inl .ok := by
  unfold refusing
  cases items with
  | nil => rfl
  | cons => split_ifs <;> simp [outcome]

theorem publish_accepted (h : items.countP bad = 0) :
    publish (refusing bad message) items budget = ⟨items.map fun _ => .ok, [items], budget⟩ := by
  have hgood : items.any bad = false := any_eq_false.2 (countP_eq_zero.1 h)
  simp [publish, outcome_refusing, hgood]

theorem forall₂_const {R : α → Result → Prop} {r : Result} (h : ∀ i ∈ items, R i r) :
    Forall₂ R items (items.map fun _ => r) := by
  rw [forall₂_map_right_iff, forall₂_same]
  exact h

theorem forall₂_halves {R : α → Result → Prop} {k : Nat} {xs ys : List Result}
    (hx : Forall₂ R (items.take k) xs)
    (hy : Forall₂ R (items.drop k) ys) : Forall₂ R items (xs ++ ys) :=
  take_append_drop k items ▸ rel_append hx hy

theorem publish_isolates (bad : α → Bool) (message : List α → String) (items : List α)
    (budget : Nat) : Isolates bad items budget (publish (refusing bad message) items budget) := by
  induction hn : items.length using Nat.strong_induction_on generalizing items budget with
  | _ n ih =>
    rw [publish, outcome_refusing]
    by_cases hbad : items.any bad = true
    · -- The request is refused.
      rw [if_pos hbad]
      dsimp only
      split_ifs with hshort hzero
      · have hone : items.length = 1 :=
          le_antisymm hshort (length_pos_of_ne_nil (by rintro rfl; cases hbad))
        obtain ⟨i, rfl⟩ := length_eq_one_iff.1 hone
        have hi : bad i = true := by simpa using hbad
        exact ⟨.cons (fun _ _ => hi) .nil, by simp [hi], rfl, fun _ _ => .cons (by simp [hi]) .nil⟩
      · refine ⟨forall₂_const nofun, by simp [hbad], by simp [hzero], fun _ hlen => ?_⟩
        rw [hzero] at hlen
        exact absurd hlen hshort
      · have hleft :=
          ih _ (by rw [length_take]; omega) (items.take (items.length / 2)) (budget - 1) rfl
        have hright := ih _ (by rw [length_drop]; omega) (items.drop (items.length / 2))
          (publish (refusing bad message) (items.take (items.length / 2)) (budget - 1)).budget rfl
        refine ⟨forall₂_halves hleft.permanent hright.permanent, ?_, ?_, fun hone hlen => ?_⟩
        · have happend := hleft.accepted.append hright.accepted
          rw [take_append_drop] at happend
          simpa [hbad] using happend
        · have hl := hleft.spent
          have hr := hright.spent
          simp only [length_cons, length_append]
          omega
        · -- The bad message is in one half; the other is accepted, at no cost to the budget.
          have hpow : 2 ^ budget = 2 * 2 ^ (budget - 1) := by
            rw [← Nat.pow_succ', Nat.succ_eq_add_one, Nat.sub_add_cancel (by omega)]
          have hcount := congrArg (countP bad) (take_append_drop (items.length / 2) items)
          rw [countP_append, hone] at hcount
          rcases Nat.eq_zero_or_pos ((items.take (items.length / 2)).countP bad) with hgood | hpos
          · rw [publish_accepted hgood] at hright ⊢
            refine forall₂_halves (forall₂_const fun _ _ _ => rfl) (hright.spared (by omega) ?_)
            rw [length_drop]
            show _ ≤ 2 ^ (budget - 1)
            omega
          · refine forall₂_halves (hleft.spared (by omega) ?_) ?_
            · rw [length_take]
              omega
            · rw [publish_accepted (by omega)]
              exact forall₂_const fun _ _ _ => rfl
    · rw [if_neg hbad]
      exact ⟨forall₂_const nofun, by simp [hbad], rfl, fun _ _ => forall₂_const fun _ _ _ => rfl⟩

/-- **A batch with bad messages.** Every message gets its result, in order, and a permanent failure
    only if it is bad; no message is in two accepted requests; each split pays for two requests; and
    when one message alone is bad, the others are all delivered. -/
theorem send_isolates (bad : α → Bool) (message : List α → String) (items : List α) :
    let sent := sendBatch (refusing bad message) items
    Forall₂ (fun i r => ∀ message, r = .error (.permanent message) →
      bad i = true) items sent.results ∧
    (sent.requests.filter fun request => !request.any bad).flatten.Sublist items ∧
    sent.requests.length ≤ 1 + 2 * splitBudget items.length ∧
    (items.countP bad = 1 → Forall₂ (fun i r => bad i = false → r = .ok) items sent.results) := by
  obtain ⟨hpermanent, haccepted, hspent, hspared⟩ :=
    publish_isolates bad message items (splitBudget items.length)
  refine ⟨hpermanent, haccepted, Nat.le.intro hspent, fun hone => hspared hone ?_⟩
  calc items.length ≤ max items.length 2 := le_max_left _ _
    _ ≤ 2 ^ Nat.clog 2 (max items.length 2) := Nat.le_pow_clog Nat.one_lt_two _
    _ ≤ 2 ^ splitBudget items.length :=
      Nat.pow_le_pow_right Nat.two_pos (by unfold splitBudget; omega)

end Ankusa.PubSub
