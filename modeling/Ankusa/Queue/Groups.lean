import Ankusa.Queue.Fence

set_option autoImplicit false

/-! # The replies of a group

The calls of a group are flattened into one list of items; admission refuses some, the dedupe check
finds duplicates and refuses more, and what is left gets seqs. The results then go back to their
items' places and the list is cut into one reply for each call. -/

namespace Ankusa

open List

namespace Writer

/-- The result is about the item: it names the item's envelope, for a duplicate with the id of the
    original. -/
def Result.Of (item : Item) : Result → Prop
  | .committed env _ => env = item.env
  | .duplicate env => ∃ id, env = { item.env with id }
  | .error _ => True

/-- The mark is the item's, and no commit yet. -/
def Mark.Of (item : Item) : Mark → Prop
  | .fresh i => i = item
  | .done (.committed _ _) => False
  | .done r => Result.Of item r

/-- The items that were committed, with their seqs, in the order of the reply. -/
def committed (items : List Item) (results : List Result) : List (Item × Nat) :=
  (items.zip results).filterMap fun
    | (item, .committed _ seq) => some (item, seq)
    | _ => none

variable {stored : Key → Option Val} {now : Ms} {ords : List (String × Nat)} {enforce : Bool}
  {quota : Quota} {items : List Item} {marks : List Mark} {results : List Result}

end Writer

namespace Node

open Writer Deliveries

/-- The call got one result for each of its items, in their order. -/
def Call.Answered (c : Call) (reply : Nat × Reply) : Prop :=
  reply.1 = c.id ∧ ∃ results, reply.2 = .ok results ∧ Forall₂ Result.Of c.items results

variable {results : List Result}

variable (cfg : Config) (s : State) (calls : List Call) (now : Ms)

end Node

end Ankusa
