import Ankusa.Lib.Run
import Ankusa.Store.Keys

set_option autoImplicit false

/-! # The claim stores

A pack is written to the first claim store that takes it and searched for in all of them, under the
keys of both layouts. What a call reads in the breaker table and what a store answers are choices of
the environment: any state of the table, changed by other calls at any moment, and any outcome of
every call. -/

namespace Ankusa.ClaimCheck

open List Run

/-- The layouts of an object key. -/
inductive Layout where
  | flat | sharded

/-- How the stores of a pack are ordered. -/
inductive Placement where
  | ordered | hash

/-- A pack, with the date and the random bits of its id, a ULID. -/
structure Pack where
  tenantId : String
  packId : String
  date : String
  entropy : Nat
deriving DecidableEq

/-- The shard of a pack: a character of the random part of its id. -/
def Pack.shard (p : Pack) : String := String.ofList ((p.packId.toList.drop 10).take 1)

/-- The key of a pack's object. -/
def objectKey (p : Pack) : Layout → String
  | .flat => "claims/tenant=" ++ p.tenantId ++ "/dt=" ++ p.date ++ "/" ++ p.packId
  | .sharded =>
    "claims/tenant=" ++ p.tenantId ++ "/shard=" ++ p.shard ++ "/dt=" ++ p.date ++ "/" ++ p.packId

/-- The keys to read: the configured layout's first. -/
def objectKeys (p : Pack) : Layout → List String
  | .sharded => [objectKey p .sharded, objectKey p .flat]
  | .flat => [objectKey p .flat, objectKey p .sharded]

/-- The configuration of the stores. -/
structure Config where
  stores : Nat
  placement : Placement
  keyLayout : Layout

/-- The store a pack is tried at first. -/
def home (cfg : Config) (p : Pack) : Nat :=
  match cfg.placement with
  | .ordered => 0
  | .hash => p.entropy % cfg.stores

/-- The stores in the order a pack's writes try them, and its reads search them. -/
def order (cfg : Config) (p : Pack) : List Nat :=
  (range cfg.stores).drop (home cfg p) ++ (range cfg.stores).take (home cfg p)

/-! ## Writes -/

/-- What a store answers to `put_if_absent`. -/
inductive Put where
  | ok | alreadyExists | throttled (seconds : Nat) | failed (reason : String)
deriving DecidableEq

/-- The failures in attempt order; the source leaves the store's index out of a single one. -/
inductive WriteError where
  | alreadyExists | unavailable (failures : List (Nat × Put))

/-- Try the stores in order; an object that already exists ends the write. -/
def attempts (put : Nat → Put) : List Nat → List (Nat × Put) → Except WriteError Nat
  | [], failures => .error (.unavailable failures.reverse)
  | i :: rest, failures =>
    match put i with
    | .ok => .ok i
    | .alreadyExists => .error .alreadyExists
    | reason => attempts put rest ((i, reason) :: failures)

/-- The stores whose breaker is open are skipped, unless all are. -/
def write (cfg : Config) (p : Pack) (down : Nat → Bool) (put : Nat → Put) : Except WriteError Nat :=
  match (order cfg p).filter fun i => !down i with
  | [] => attempts put (order cfg p) []
  | up => attempts put up []

/-! ## Reads -/

/-- What a store answers to `get_range`. -/
inductive Got where
  | ok (bin : Bin) | notFound | eof | status (code : Nat) | other (reason : String)

/-- Why a read failed. -/
inductive ReadError where
  | notFound | forbidden | unavailable (reason : Got)

/-- A range past the end of an object is empty: the object is there. -/
def get : Got → Except ReadError Bin
  | .ok bin => .ok bin
  | .notFound => .error .notFound
  | .eof | .status 416 => .ok []
  | .status 403 => .error .forbidden
  | reason => .error (.unavailable reason)

/-- The first error is kept, and a store that could not answer is not asked again. -/
def search (got : Nat → String → Got) :
    List (String × Nat) → Option ReadError → List Nat → Except ReadError (Bin × Nat × String)
  | [], error, _ => .error (error.getD .notFound)
  | (key, i) :: rest, error, failed =>
    if i ∈ failed then search got rest error failed
    else
      match get (got i key) with
      | .ok bin => .ok (bin, i, key)
      | .error .notFound => search got rest error failed
      | .error (.unavailable reason) =>
        search got rest (error <|> some (.unavailable reason)) (i :: failed)
      | .error .forbidden => search got rest (error <|> some .forbidden) failed

/-- Read a range of a pack: the stores that are up first, under either key. -/
def readRange (cfg : Config) (p : Pack) (down : Nat → Bool) (got : Nat → String → Got) :
    Except ReadError (Bin × Nat × String) :=
  let stores := order cfg p
  search got ([stores.filter fun i => !down i, stores.filter down].flatMap fun group =>
      (objectKeys p cfg.keyLayout).flatMap fun key =>
    group.map fun i => (key, i)) none []

section

variable {cfg : Config} {p : Pack} {down : Nat → Bool} {put : Nat → Put} {got : Nat → String → Got}
  {i n : Nat} {pairs : List (String × Nat)}

theorem mem_order : i ∈ order cfg p ↔ i < cfg.stores := by
  rw [order, mem_append, or_comm, ← mem_append, take_append_drop, mem_range]

/-- A write that reports a pack stored has it from one of the stores. -/
theorem attempts_ok {stores : List Nat} {failures : List (Nat × Put)}
    (h : attempts put stores failures = .ok i) : i ∈ stores ∧ put i = .ok := by
  fun_induction attempts put stores failures with
  | case1 | case3 => cases h
  | case2 j rest failures hok =>
    cases h
    exact ⟨mem_cons_self, hok⟩
  | case4 j rest failures _ _ ih => exact (ih h).imp_left (mem_cons_of_mem _)

theorem write_ok (h : write cfg p down put = .ok i) : i < cfg.stores ∧ put i = .ok := by
  unfold write at h
  split at h
  · exact (attempts_ok h).imp_left mem_order.1
  · exact (attempts_ok h).imp_left fun hi => mem_order.1 (mem_of_mem_filter hi)

/-- What a search finds is what the store it names answers under the key it names. -/
theorem search_ok {error : Option ReadError} {failed : List Nat} {bin : Bin} {key : String}
    (h : search got pairs error failed = .ok (bin, i, key)) :
    (key, i) ∈ pairs ∧ get (got i key) = .ok bin := by
  induction pairs generalizing error failed with
  | nil => cases h
  | cons x pairs ih =>
    unfold search at h
    split at h
    · exact (ih h).imp_left (mem_cons_of_mem x)
    split at h
    next hget =>
      cases h
      exact ⟨mem_cons_self, hget⟩
    all_goals exact (ih h).imp_left (mem_cons_of_mem x)

theorem search_kept {e e' : ReadError} {failed : List Nat}
    (h : search got pairs (some e) failed = .error e') : e' = e := by
  induction pairs generalizing failed with
  | nil =>
    cases h
    rfl
  | cons x pairs ih =>
    unfold search at h
    split at h
    · exact ih h
    split at h
    · cases h
    all_goals exact ih h

/-- A search that fails has been told so by a store, or every store has been asked under every
    key. -/
theorem search_error {e : ReadError} (h : search got pairs none [] = .error e) :
    (e = .notFound ∧ ∀ x ∈ pairs, get (got x.2 x.1) = .error .notFound) ∨
      e ≠ .notFound ∧ ∃ x ∈ pairs, get (got x.2 x.1) = .error e := by
  induction pairs with
  | nil =>
    cases h
    exact .inl ⟨rfl, forall_mem_nil _⟩
  | cons x pairs ih =>
    unfold search at h
    rw [if_neg not_mem_nil] at h
    split at h
    · cases h
    next hmiss =>
      rcases ih h with ⟨he, hall⟩ | ⟨he, y, hy, hget⟩
      · exact .inl ⟨he, forall_mem_cons.2 ⟨hmiss, hall⟩⟩
      · exact .inr ⟨he, y, mem_cons_of_mem _ hy, hget⟩
    all_goals
      obtain rfl := search_kept h
      exact .inr ⟨nofun, x, mem_cons_self, by assumption⟩

/-- Every store is searched under the keys of both layouts. -/
theorem readRange_eq (cfg : Config) (p : Pack) (down : Nat → Bool) (got : Nat → String → Got) :
    ∃ pairs, readRange cfg p down got = search got pairs none [] ∧
    ∀ key i, (key, i) ∈ pairs ↔ i < cfg.stores ∧ ∃ l, key = objectKey p l := by
  refine ⟨_, rfl, fun key i => ?_⟩
  have hkeys : key ∈ objectKeys p cfg.keyLayout ↔ ∃ l, key = objectKey p l := by
    constructor
    · cases cfg.keyLayout <;> simp only [objectKeys, mem_cons, not_mem_nil, or_false] <;>
        rintro (h | h) <;> exact ⟨_, h⟩
    · rintro ⟨l, rfl⟩
      cases cfg.keyLayout <;> cases l <;> simp [objectKeys]
  rw [← hkeys, ← mem_order (p := p)]
  cases hdown : down i <;> simp [hdown, and_comm]

end

/-! ## Runs -/

/-- The objects of the stores, and the packs that a write has reported stored. -/
structure State where
  blobs : List ((Nat × String) × Bin)
  stored : List Pack

/-- The events of the stores. -/
inductive Event where
  /-- An object lands in a store, whatever the caller hears of it. -/
  | land (i : Nat) (key : String) (bin : Bin)
  /-- A write returns. A store that has answered `:ok` holds the object. -/
  | write (cfg : Config) (p : Pack) (down : Nat → Bool) (put : Nat → Put)

/-- One event; the writes that returned `:ok` are remembered. -/
def step (n : Nat) (s : State) : Event → Option State
  | .land i key bin =>
    if s.blobs.lookup (i, key) = none then some { s with blobs := ((i, key), bin) :: s.blobs }
      else none
  | .write cfg p down put =>
    if cfg.stores = n ∧ ∀ i < n, put i = .ok →
        (s.blobs.lookup (i, objectKey p cfg.keyLayout)).isSome then
      some { s with stored := (write cfg p down put).toOption.toList.map (fun _ => p) ++ s.stored }
    else none

/-- Every store answers with the bytes of the range, if it holds the object, or that it does not. -/
def Answers (n : Nat) (s : State) (p : Pack) (offset length : Nat) (got : Nat → String → Got) :
    Prop :=
  ∀ i < n, ∀ l, get (got i (objectKey p l)) = match s.blobs.lookup (i, objectKey p l) with
    | some bin => .ok ((bin.drop offset).take length)
    | none => .error .notFound

/-- A pack that was reported stored is in one of the stores, under the key of one of the layouts. -/
def Held (n : Nat) (s : State) : Prop :=
  ∀ p ∈ s.stored, ∃ i < n, ∃ l, (s.blobs.lookup (i, objectKey p l)).isSome

theorem Held.step {n : Nat} {s t : State} {e : Event} (h : Held n s) (hstep : step n s e = some t) :
    Held n t := by
  cases e with
  | land =>
    obtain ⟨-, rfl⟩ := guarded hstep
    intro p hp
    obtain ⟨i, hi, l, hl⟩ := h p hp
    refine ⟨i, hi, l, ?_⟩
    rw [lookup_cons]
    split
    · rfl
    · exact hl
  | write cfg p down put =>
    obtain ⟨⟨rfl, hput⟩, rfl⟩ := guarded hstep
    refine forall_mem_append.2 ⟨fun p' hp' => ?_, h⟩
    cases hwrite : write cfg p down put with
    | error => simp [hwrite, Except.toOption] at hp'
    | ok i =>
      obtain rfl : p' = p := by simpa [hwrite, Except.toOption] using hp'
      obtain ⟨hi, hok⟩ := write_ok hwrite
      exact ⟨i, hi, cfg.keyLayout, hput i hi hok⟩

/-- A read answers not_found only if every store did under both keys, what it finds is the answer of
    the store it names under a key of the pack, and a pack that a write has reported stored is found
    by every later read in which all stores answer, under any layout and breakers: the range of an
    object that a store holds for the pack. -/
theorem read_exhaustive {es : List Event} {s : State} (cfg : Config)
    (hrun : Run.exec (step cfg.stores) ⟨[], []⟩ es = some s) (p : Pack) (down : Nat → Bool)
    (got : Nat → String → Got) : (readRange cfg p down got = .error .notFound →
      ∀ i < cfg.stores, ∀ l, get (got i (objectKey p l)) = .error .notFound) ∧
    (∀ bin i key, readRange cfg p down got = .ok (bin, i, key) →
      i < cfg.stores ∧ (∃ l, key = objectKey p l) ∧ get (got i key) = .ok bin) ∧
    ∀ offset length, p ∈ s.stored → Answers cfg.stores s p offset length got →
      ∃ i < cfg.stores, ∃ l bin, s.blobs.lookup (i, objectKey p l) = some bin ∧
        readRange cfg p down got = .ok ((bin.drop offset).take length, i, objectKey p l) := by
  have hheld : Held cfg.stores s :=
    exec_invariant (fun _ _ _ h => h.step) (fun _ hp => absurd hp not_mem_nil) hrun
  obtain ⟨pairs, hread, hpairs⟩ := readRange_eq cfg p down got
  rw [hread]
  refine ⟨fun h i hi l => ?_, fun bin i key h => ?_, fun offset length hp hanswers => ?_⟩
  · obtain ⟨-, hall⟩ := (search_error h).resolve_right fun h => h.1 rfl
    exact hall _ ((hpairs _ i).2 ⟨hi, l, rfl⟩)
  · obtain ⟨hmem, hget⟩ := search_ok h
    exact and_assoc.1 ⟨(hpairs key i).1 hmem, hget⟩
  · cases hsearch : search got pairs none [] with
    | ok found =>
      obtain ⟨bin, i, key⟩ := found
      obtain ⟨hmem, hget⟩ := search_ok hsearch
      obtain ⟨hi, l, rfl⟩ := (hpairs key i).1 hmem
      have hanswer := hanswers i hi l
      rw [hget] at hanswer
      split at hanswer
      next object hobject => exact ⟨i, hi, l, object, hobject, by rw [Except.ok.inj hanswer]⟩
      · cases hanswer
    | error =>
      rcases search_error hsearch with ⟨-, hall⟩ | ⟨hne, ⟨key, i⟩, hmem, hget⟩
      · obtain ⟨i, hi, l, hl⟩ := hheld p hp
        obtain ⟨bin, hbin⟩ := Option.isSome_iff_exists.1 hl
        have hanswer := hanswers i hi l
        rw [hbin, hall _ ((hpairs _ i).2 ⟨hi, l, rfl⟩)] at hanswer
        cases hanswer
      · obtain ⟨hi, l, rfl⟩ := (hpairs key i).1 hmem
        have hanswer := hanswers i hi l
        rw [hget] at hanswer
        split at hanswer
        · cases hanswer
        · exact absurd (Except.error.inj hanswer) hne

/-- The first store refuses the pack, and the second takes it. -/
def pack : Pack := ⟨"acme", "01JQ0000000ABCDEFGHJKMNPQR", "2026-11-16", 7⟩

/-- The first store fails and the second takes the pack. -/
def fellThrough : List Event := [.land 1 (objectKey pack .flat) [1, 2, 3],
  .write ⟨2, .ordered, .flat⟩ pack (fun _ => false) fun i =>
    if i = 0 then .failed "timeout" else .ok]

/-- Two bytes of the object at the second one. -/
def held (i : Nat) (key : String) : Got :=
  if i = 1 ∧ key = objectKey pack .flat then .ok [2, 3] else .notFound

theorem fellThrough_found : ∃ s, Run.exec (step 2) ⟨[], []⟩ fellThrough = some s ∧ pack ∈ s.stored ∧
    readRange ⟨2, .hash, .sharded⟩ pack (fun i => i = 1) held =
    .ok ([2, 3], 1, objectKey pack .flat) := by
  obtain ⟨s, hrun, hstored, hblobs⟩ := of_exec (f := step 2) (s := ⟨[], []⟩) (l := fellThrough)
    (P := fun s => pack ∈ s.stored ∧ s.blobs = [((1, objectKey pack .flat), [1, 2, 3])])
    (by decide +kernel)
  have hlookup : ∀ i l, s.blobs.lookup (i, objectKey pack l) =
      if i = 1 ∧ objectKey pack l = objectKey pack .flat then some [1, 2, 3] else none :=
        fun i l => by
    rw [hblobs, lookup_cons, lookup_nil]
    split <;> simp_all
  obtain ⟨i, -, l, bin, hbin, hfound⟩ :=
    (read_exhaustive ⟨2, .hash, .sharded⟩ hrun pack (fun i => i = 1) held).2.2 1 2 hstored
        fun i _ l => by
      rw [hlookup, held]
      split <;> rfl
  obtain ⟨⟨rfl, hkey⟩, hobject⟩ := Option.ite_none_right_eq_some.1 ((hlookup i l).symm.trans hbin)
  cases hobject
  rw [hkey] at hfound
  exact ⟨s, hrun, hstored, hfound⟩

end Ankusa.ClaimCheck
