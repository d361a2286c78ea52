import Ankusa.Intake.PendingRuns

set_option autoImplicit false

/-! # Fleet claims on carried hooks

An edge process whose hook is carried hands its fleet claim to the reconciler (`Pending.hold/3`),
which promotes it once both halves are confirmed, or releases it once the hook is stuck. The edge
process, the reconciler and the writer work on the same entry without a lock, so every read and
write of it by one of them is a step of its own here: `hold/3` reads the entry, writes the claim and
reads the entry again; `take_claim/2` reads the claim and clears it; a completed entry is taken out
by one process and its claim is promoted by the reconciler afterwards. -/

namespace Ankusa.Pending.Claims

open KV List Option Table Run

/-- How a claim ends. -/
inductive Settlement where
  | promoted | released
  deriving DecidableEq, Repr

/-- Where a `hold/3` call is: about to write the claim, or about to read the entry back. -/
inductive Phase where
  | writing | checking
  deriving DecidableEq, Repr

/-- A caller of `hold/3`. -/
structure Holder where
  claim : Claim
  id : String
  seq : Nat
  phase : Phase

/-- The reconciler has marked an entry stuck, and then has read its claim. -/
inductive Taking where
  | idle
  | marked (seq : Nat)
  | read (seq : Nat) (claim : Option Claim)
  deriving DecidableEq, Repr

/-- The entry the reconciler is about to take a claim from. -/
def Taking.seq? : Taking → Option Nat
  | .idle => none
  | .marked q | .read q _ => some q

/-- The pending set, the callers that hold claims and the reconciler. -/
structure State where
  shared : Shared
  /-- The hooks whose caller was told that a half is missing and has not called `hold/3` yet. -/
  halved : List String
  holders : List Holder
  /-- Completed entries on their way to `Reconciler.finish/3`. -/
  handed : List (Nat × Entry)
  taking : Taking
  /-- The claims handed over so far with their hooks, and how claims were settled. -/
  begun : List (Claim × String)
  settled : List (Claim × Settlement)
  /-- The hooks confirmed in the local store and in the log. -/
  stored : List String
  logged : List String

/-- The pending set. -/
def State.table (s : State) : Table := s.shared.table

/-- An empty set and no claim. -/
def State.start : State := ⟨.start, [], [], [], .idle, [], [], [], []⟩

/-- The pending set becomes `t`. -/
def State.setTable (s : State) (t : Table) : State :=
  { s with shared := { s.shared with table := t } }

/-- A claim is settled. -/
def State.settle (s : State) (c : Claim) (how : Settlement) : State :=
  { s with settled := (c, how) :: s.settled }

/-- The calls on the table, and each read and write of `hold/3`. -/
inductive Event where
  /-- A call on the table that settles nothing: entering, confirming, carrying, scheduling, a
    crash. -/
  | table (ev : Pending.Event)
  | localDone (batch : Nat)
  | logDone (seq position : Nat)
  | promote (i : Nat)
  /-- A completed entry never reaches the reconciler: its call timed out, or it died. -/
  | lose (i : Nat)
  | mark (seq : Nat)
  | takeRead
  | takeClear
  | holdRead (claim : Claim) (id : String)
  | holdWrite (i : Nat)
  | holdCheck (i : Nat)

/-- The calls on the table that have no step of their own here. -/
def plain : Pending.Event → Bool
  | .enter .. | .confirm .. | .carry .. | .reschedule .. | .bumpConfirmed .. | .crash => true
  | .localDone .. | .logDone .. | .markStuck .. | .takeClaim .. | .hold .. => false

/-- The hooks of a batch that is carried: their callers are told that a half is missing. -/
def carriedIds (sh : Shared) : Pending.Event → List String
  | .carry i _ _ _ _ =>
    ((sh.inflight[i]?).map fun f => idsAt sh.table (f.records.map Rec.seq)).getD []
  | _ => []

/-- The hooks whose local half a call reports done. -/
def storedIds (sh : Shared) : Pending.Event → List String
  | .carry i o ops time now =>
    if o.local_ = .ok then carriedIds sh (.carry i o ops time now) else []
  | _ => []

/-- The hooks whose log half a call reports done. -/
def loggedIds (sh : Shared) : Pending.Event → List String
  | .carry i o ops time now => if o.log = .ok then carriedIds sh (.carry i o ops time now) else []
  | _ => []

/-- One call, or one table operation of `hold/3` and of the reconciler. -/
def step (s : State) : Event → Option State
  | .table ev =>
    if plain ev then
      (Pending.step s.shared ev).map fun sh =>
        { s with
          shared := sh
          halved := carriedIds s.shared ev ++ s.halved
          stored := storedIds s.shared ev ++ s.stored
          logged := loggedIds s.shared ev ++ s.logged }
    else none
  | .localDone b =>
    let done := s.table.localDone b
    some { s.setTable done.1 with
      handed := s.handed ++ done.2
      stored := idsAt s.table (((s.table.batches.get b).map Plan.seqs).getD []) ++ s.stored }
  | .logDone q p =>
    if s.table.storedAt q ∧ s.taking = .idle then
      let done := s.table.logDone q p
      some { s.setTable done.1 with
        handed := s.handed ++ done.2
        logged := idsAt s.table [q] ++ s.logged }
    else none
  | .promote i =>
    (s.handed[i]?).map fun x =>
      let s := { s with handed := s.handed.eraseIdx i }
      match x.2.claim with
      | none => s
      | some c => s.settle c .promoted
  | .lose i => (s.handed[i]?).map fun _ => { s with handed := s.handed.eraseIdx i }
  | .mark q =>
    if s.taking = .idle then
      let marked := s.table.markStuck q
      some { s.setTable marked.1 with taking := if marked.2 then .marked q else .idle }
    else none
  | .takeRead =>
    match s.taking with
    | .marked q => some { s with taking := .read q ((s.table.entries.get q).bind Entry.claim) }
    | _ => none
  | .takeClear =>
    match s.taking with
    | .read _ none => some { s with taking := .idle }
    | .read q (some c) =>
      some ({ s.setTable (s.table.update q fun e => { e with claim := none }) with
        taking := .idle }.settle c .released)
    | _ => none
  | .holdRead c id =>
    if id ∈ s.halved ∧ c ∉ s.begun.map Prod.fst ∧ id ∉ s.begun.map Prod.snd then
      let s := { s with halved := s.halved.filter (· ≠ id), begun := (c, id) :: s.begun }
      match s.table.holdFind id with
      | none => some (s.settle c .promoted)
      | some (_, true) => some (s.settle c .released)
      | some (q, false) => some { s with holders := ⟨c, id, q, .writing⟩ :: s.holders }
    else none
  | .holdWrite i =>
    match s.holders[i]? with
    | some ⟨c, id, q, .writing⟩ =>
      let s := { s with holders := s.holders.eraseIdx i }
      match s.table.entries.get q with
      | none => some (s.settle c .promoted)
      | some _ =>
        some { s.setTable (s.table.update q fun e => { e with claim := some c }) with
          holders := ⟨c, id, q, .checking⟩ :: s.holders }
    | _ => none
  | .holdCheck i =>
    match s.holders[i]? with
    | some ⟨c, _, q, .checking⟩ =>
      let s := { s with holders := s.holders.eraseIdx i }
      match s.table.holdCheck q with
      | .completed => some (s.settle c .promoted)
      | .stuck => some (s.settle c .released)
      | .held => some s
    | _ => none

/-! ## Runs in which `hold/3` is not interrupted -/

/-- No `hold/3` call is between its write and its last read of the entry, and its claim is not being
    taken. -/
def State.free (s : State) (q : Nat) : Prop :=
  (∀ h ∈ s.holders, h.seq = q → h.phase = .writing) ∧ s.taking.seq? ≠ some q

/-- An entry is not completed between the write and the last read of a `hold/3` call on it, nor
    while its claim is being taken, and not marked stuck during such a call; a batch reuses nothing
    that is pending or that a call works on; and no completed entry is lost on its way to the
    reconciler. -/
def Exclusive (s : State) : Event → Prop
  | .table (.enter records batch _) =>
    Apart s.table records batch ∧ ∀ r ∈ records, (∀ h ∈ s.holders, h.seq ≠ r.seq) ∧
      s.taking.seq? ≠ some r.seq
  | .localDone b => ∀ q ∈ ((s.table.batches.get b).map Plan.seqs).getD [], s.free q
  | .logDone q _ => s.free q
  | .mark q => ∀ h ∈ s.holders, h.seq ≠ q
  | .lose _ => False
  | _ => True

instance (s : State) (q : Nat) : Decidable (s.free q) := inferInstanceAs (Decidable (_ ∧ _))

instance (s : State) (ev : Event) : Decidable (Exclusive s ev) := by
  unfold Exclusive
  split <;> infer_instance

/-! ## What the operations do to a hook and its claim -/

/-- What settling looks at in an entry. -/
structure Face where
  id : String
  claim : Option Claim
  stuck : Bool
  local_ : Half
  log : Half
  carried : Bool

/-- What a claim depends on in an entry. -/
def face (e : Entry) : Face := ⟨e.id, e.claim, e.stuck, e.local_, e.log, e.nextAt.isSome⟩

/-- The face of the entry under a seq. -/
def faceAt (t : Table) (q : Nat) : Option Face := (t.entries.get q).map face

/-- How many entries hold the claim. -/
def holding (t : Table) (c : Claim) : Int :=
  t.entries.total fun _ e => if e.claim = some c then 1 else 0

/-- Whether a completed entry holds the claim. -/
def bears (c : Claim) (x : Nat × Entry) : Bool := x.2.claim = some c

variable {t : Table} {q : Nat} {c : Claim}

theorem faceAt_set (q' : Nat) (new : Option Entry) (u : Table)
    (hu : u.entries = t.entries.set q new) :
    faceAt u q' = if q' = q then new.map face else faceAt t q' := by
  unfold faceAt
  rw [hu, Map.get_set]
  split <;> rfl

theorem holding_set (new : Option Entry) (u : Table) (hu : u.entries = t.entries.set q new)
    (c : Claim) :
    holding u c = holding t c + (weigh (fun _ e => if e.claim = some c then 1 else 0) q new -
      weigh (fun _ e => if e.claim = some c then 1 else 0) q (t.entries.get q)) := by
  unfold holding
  rw [hu, Map.total_set]

theorem holding_nonneg (t : Table) (c : Claim) : 0 ≤ holding t c :=
  Map.total_nonneg (fun _ e => by split <;> decide) t.entries

variable {f : Face}

theorem holding_pos (hf : faceAt t q = some f) (hc : f.claim = some c) : 1 ≤ holding t c := by
  obtain ⟨e, he, rfl⟩ := map_eq_some_iff.1 hf
  have hle := Map.weigh_le_total (w := fun _ e => if e.claim = some c then (1 : Int) else 0)
    (fun _ e => by split <;> decide) t.entries q
  rw [he, weigh_some, if_pos (show e.claim = some c from hc)] at hle
  exact hle

theorem faceAt_enter (records : List Rec) (b : Nat) (now : Ms) (q : Nat) :
    q ∉ records.map Rec.seq ∧ faceAt (t.enter records b now) q = faceAt t q ∨ ∃ r ∈ records,
    r.seq = q ∧
      faceAt (t.enter records b now) q = some ⟨r.id, none, false, .missing, .missing, false⟩ := by
  rcases t.get_enter records b now q with ⟨hq, hsame⟩ | ⟨r, hr, hseq, hnew⟩
  · exact .inl ⟨hq, congrArg _ hsame⟩
  · exact .inr ⟨r, hr, hseq, congrArg _ hnew⟩

/-- The same entries hold the claim. -/
theorem holding_congr {u : Table}
    (h : ∀ q, (faceAt u q).bind Face.claim = (faceAt t q).bind Face.claim) (c : Claim) :
    holding u c = holding t c := by
  refine Map.total_congr fun q => ?_
  have hq := h q
  unfold faceAt at hq
  cases hu : u.entries.get q <;> cases ht : t.entries.get q <;> grind [weigh, face]

variable {records : List Rec} {P : Face → Prop} {ds : List (Nat × Entry)}

theorem holding_enter (hfresh : ∀ r ∈ records, r.Fresh t) (b : Nat) (now : Ms) (c : Claim) :
    holding (t.enter records b now) c = holding t c := by
  refine holding_congr (fun q => ?_) c
  rcases faceAt_enter records b now q with ⟨-, hsame⟩ | ⟨r, hr, rfl, hnew⟩
  · rw [hsame]
  · rw [hnew, faceAt, (hfresh r hr).seq]
    rfl

theorem faceAt_confirm (seqs : List Nat) (p : Option Nat) (q : Nat) :
    faceAt (t.confirm seqs p) q = if q ∈ seqs then none else faceAt t q := by
  unfold confirm faceAt
  rw [entries_bumpConfirmed, get_foldl_remove]
  split <;> rfl

theorem entries_remove (q : Nat) : (t.remove q).entries = t.entries.set q none ∨
    t.entries.get q = none ∧ (t.remove q).entries = t.entries := by
  unfold Table.remove
  cases hq : t.entries.get q with
  | none => exact .inr ⟨rfl, rfl⟩
  | some => exact .inl rfl

theorem holding_remove (q : Nat) (c : Claim) : holding (t.remove q) c = holding t c -
    weigh (fun _ e => if e.claim = some c then 1 else 0) q (t.entries.get q) := by
  rcases entries_remove q with hset | ⟨hnone, hsame⟩
  · rw [holding_set none _ hset, weigh_none]
    omega
  · rw [hnone, weigh_none]
    unfold holding
    rw [hsame]
    omega

theorem holding_bumpConfirmed (p : Option Nat) (c : Claim) :
    holding (t.bumpConfirmed p) c = holding t c := by
  unfold holding
  rw [entries_bumpConfirmed]

variable {seqs : List Nat}

theorem holding_confirm
    (hfree : ∀ q ∈ seqs, ∀ e, t.entries.get q = some e → e.claim = none) (p : Option Nat)
    (c : Claim) : holding (t.confirm seqs p) c = holding t c := by
  refine holding_congr (fun q => ?_) c
  rw [faceAt_confirm]
  split
  next hq =>
    cases he : t.entries.get q with
    | none => simp [faceAt, he]
    | some e => simp [faceAt, he, face, hfree q hq e he]
  next => rfl

theorem faceAt_carry (o : Outcome) (records : List Rec) (b : Nat) (plan : Plan) (now : Ms)
    (q : Nat) : faceAt (t.carry o records b plan now) q =
      if q ∈ records.map Rec.seq then
        (faceAt t q).map fun f => { f with local_ := o.local_, log := o.log, carried := true }
      else faceAt t q :=
  seen_carry _ o records b plan now q (fun _ _ => rfl) fun _ => rfl

theorem holding_carry (o : Outcome) (records : List Rec) (b : Nat) (plan : Plan) (now : Ms)
    (c : Claim) : holding (t.carry o records b plan now) c = holding t c := by
  refine holding_congr (fun q => ?_) c
  rw [faceAt_carry]
  split
  · cases faceAt t q <;> rfl
  · rfl

theorem faceAt_reschedule (hcarried : t.carriedAt q) (n : Ms) (q' : Nat) :
    faceAt (t.reschedule q n) q' = faceAt t q' := by
  refine (modified_reschedule q n).same _ (fun e hq => ?_) q'
  have hsome : e.nextAt.isSome := by simpa [carriedAt, hq] using hcarried
  simp [face, hsome]

theorem modified_markStuck (q : Nat) :
    Table.Modified (fun e => { e with stuck := true }) q t (t.markStuck q).1 := by
  unfold markStuck
  cases hq : t.entries.get q with
  | none => exact .of_set (fun _ => rfl) fun e he => by rw [hq] at he; cases he
  | some e =>
    by_cases hs : e.stuck
    · intro q'
      have hsame : { e with stuck := true } = e := by rw [← hs]
      by_cases hne : q' = q <;> simp [hs, hne, hq, hsame]
    · dsimp only
      rw [if_neg hs]
      exact modified_update _

theorem faceAt_markStuck (q q' : Nat) : faceAt (t.markStuck q).1 q' =
    if q' = q then (faceAt t q).map fun f => { f with stuck := true } else faceAt t q' :=
  (modified_markStuck q).map face (fun _ _ => rfl) q'

theorem holding_markStuck (q : Nat) (c : Claim) : holding (t.markStuck q).1 c = holding t c := by
  refine holding_congr (fun q' => ?_) c
  rw [faceAt_markStuck]
  split
  next hq => cases hf : faceAt t q <;> simp [hq, hf]
  next => rfl

theorem faceAt_setClaim (q : Nat) (new : Option Claim) (q' : Nat) :
    faceAt (t.update q fun e => { e with claim := new }) q' =
      if q' = q then (faceAt t q).map fun f => { f with claim := new } else faceAt t q' :=
  (modified_update _).map face (fun _ _ => rfl) q'

theorem holding_setClaim (hf : faceAt t q = some f) (new : Option Claim) (c : Claim) :
    holding (t.update q fun e => { e with claim := new }) c =
      holding t c + ((if new = some c then 1 else 0) - if f.claim = some c then 1 else 0) := by
  obtain ⟨e, he, rfl⟩ := map_eq_some_iff.1 hf
  have hu : t.update q (fun e => { e with claim := new }) =
      { t with entries := t.entries.set q (some { e with claim := new }) } := by
    simp [Table.update, he]
  rw [hu, holding_set (some { e with claim := new }) _ rfl, he]
  rfl

/-- An entry is completed exactly when both its halves are there, and then it is taken out. -/
theorem finish_spec (t : Table) (q : Nat) :
    ((t.finish q).1 = t ∧ (t.finish q).2 = [] ∧ ∀ f, faceAt t q = some f →
      ¬ (f.local_ = .ok ∧ f.log = .ok)) ∨
    ∃ e, t.entries.get q = some e ∧ e.local_ = .ok ∧ e.log = .ok ∧ (t.finish q).2 = [(q, e)] ∧
      (∀ q', faceAt (t.finish q).1 q' = if q' = q then none else faceAt t q') ∧
      ∀ c, holding t c = holding (t.finish q).1 c + if e.claim = some c then 1 else 0 := by
  unfold Table.finish
  cases hq : t.entries.get q with
  | none => exact .inl ⟨rfl, rfl, fun f hf => by simp [faceAt, hq] at hf⟩
  | some e =>
    by_cases hdone : e.local_ = .ok ∧ e.log = .ok
    · refine .inr ⟨e, rfl, hdone.1, hdone.2, by simp [hdone], fun q' => ?_, fun c => ?_⟩
      · simp only [hdone, and_self, if_true, faceAt, entries_bumpConfirmed, get_remove]
        split <;> rfl
      · simp only [hdone, and_self, if_true, holding_bumpConfirmed, holding_remove, hq, weigh_some]
        omega
    · refine .inl ⟨by simp [hdone], by simp [hdone], fun f hf => ?_⟩
      simp only [faceAt, hq, map_some, Option.some.injEq] at hf
      subst hf
      exact hdone

/-- What the completion of a half at `seqs` does: entries whose other half (`P`) was there leave and
    are handed on with their claims, the others stay with theirs. -/
structure Completes (P : Face → Prop) (seqs : List Nat) (t u : Table) (ds : List (Nat × Entry)) :
    Prop where
  other : ∀ q, q ∉ seqs → faceAt u q = faceAt t q
  left : ∀ q f', faceAt u q = some f' → ∃ f, faceAt t q = some f ∧ f'.id = f.id ∧
    f'.claim = f.claim ∧
    f'.stuck = f.stuck ∧ f'.carried = f.carried ∧ (f'.local_ = .ok → f.local_ = .ok ∨ q ∈ seqs) ∧
    f'.log = f.log
  gone : ∀ q f, faceAt t q = some f → faceAt u q = none → q ∈ seqs ∧ P f
  done : ∀ x ∈ ds, ∃ q ∈ seqs, ∃ f, faceAt t q = some f ∧ P f ∧ x.2.id = f.id ∧ x.2.claim = f.claim
  holding : ∀ c, holding t c = holding u c + ds.countP (bears c)

theorem Completes.refl (P : Face → Prop) (seqs : List Nat) (t : Table) :
    Completes P seqs t t [] where
  other _ _ := rfl
  left _ f hf := ⟨f, hf, rfl, rfl, rfl, rfl, .inl, rfl⟩
  gone q f hf hnone := by rw [hf] at hnone; cases hnone
  done _ hx := absurd hx not_mem_nil
  holding c := by simp

variable {u : Table}

/-- An entry is written over under the same hook and claim, and taken out if both its halves are
    there. -/
theorem completes_finish {e e' : Entry} (hq : t.entries.get q = some e)
    (hu : u.entries = t.entries.set q (some e')) (hid : e'.id = e.id) (hclaim : e'.claim = e.claim)
    (hstuck : e'.stuck = e.stuck) (hnext : e'.nextAt = e.nextAt)
    (hlog : e'.log = e.log ∨ e'.local_ = .ok ∧ e'.log = .ok)
    (hP : e'.local_ = .ok → e'.log = .ok → P (face e)) :
    Completes P [q] t (u.finish q).1 (u.finish q).2 := by
  have hface : ∀ q', faceAt u q' = if q' = q then some (face e') else faceAt t q' :=
    fun q' => faceAt_set q' _ u hu
  have hhold : ∀ c, holding u c = holding t c := fun c => by
    rw [holding_set _ u hu, hq]
    simp [hclaim]
  have hself : faceAt t q = some (face e) := by simp [faceAt, hq]
  rcases finish_spec u q with ⟨hkept, hnone, hnot⟩ | ⟨e₁, he₁, hl, hg, hdone, hout, hcount⟩
  · have hlog := hlog.resolve_right (hnot (face e') (by rw [hface, if_pos rfl]))
    rw [hkept, hnone]
    refine ⟨fun q' hne => ?_, fun q' f' hf' => ?_, fun q' f hf hgone => ?_, forall_mem_nil _,
      fun c => by simp [hhold]⟩
    · rw [hface, if_neg (by simpa using hne)]
    · rw [hface] at hf'
      split at hf'
      next he =>
        cases hf'
        exact ⟨face e, he ▸ hself, hid, hclaim, hstuck,
          by simp [face, hnext], fun _ => .inr (by simp [he]), hlog⟩
      · exact ⟨f', hf', rfl, rfl, rfl, rfl, .inl, rfl⟩
    · rw [hface] at hgone
      split at hgone
      · cases hgone
      · rw [hf] at hgone
        cases hgone
  · rw [hu, Map.get_set, if_pos rfl] at he₁
    cases he₁
    rw [hdone]
    refine ⟨fun q' hne => ?_, fun q' f' hf' => ?_, fun q' f hf hgone => ?_, fun x hx => ?_,
      fun c => ?_⟩
    · have hne : q' ≠ q := by simpa using hne
      rw [hout, if_neg hne, hface, if_neg hne]
    · rw [hout] at hf'
      split at hf'
      · cases hf'
      next hne =>
        rw [hface, if_neg hne] at hf'
        exact ⟨f', hf', rfl, rfl, rfl, rfl, .inl, rfl⟩
    · by_cases hne : q' = q
      · subst hne
        obtain rfl := some.inj (hself.symm.trans hf)
        exact ⟨by simp, hP hl hg⟩
      · rw [hout, if_neg hne, hface, if_neg hne, hf] at hgone
        cases hgone
    · obtain rfl := mem_singleton.1 hx
      exact ⟨q, by simp, face e, hself, hP hl hg, hid, hclaim⟩
    · rw [← hhold, hcount c]
      simp [bears, countP_cons]

theorem localOne_completes (t : Table) (q : Nat) :
    Completes (fun f => f.log = .ok) [q] t (t.localOne q).1 (t.localOne q).2 := by
  unfold localOne
  cases hq : t.entries.get q with
  | none => exact .refl _ _ t
  | some => exact completes_finish hq rfl rfl rfl rfl rfl (.inl rfl) fun _ hlog => hlog

theorem logDone_completes (hstored : t.storedAt q) (p : Nat) :
    Completes (fun f => f.local_ = .ok) [q] t (t.logDone q p).1 (t.logDone q p).2 := by
  unfold logDone
  cases hq : t.entries.get q with
  | none => exact .refl _ _ t
  | some e =>
    have hok : e.nextAt.isSome ∧ e.local_ = .ok := by simpa [storedAt, hq] using hstored
    exact completes_finish hq rfl rfl rfl rfl rfl (.inr ⟨hok.2, rfl⟩) fun hlocal _ => hlocal

theorem Completes.trans {v : Table} {qs rs : List Nat} {es : List (Nat × Entry)}
    (h : Completes (fun f => f.log = .ok) qs t u ds)
    (h' : Completes (fun f => f.log = .ok) rs u v es) :
    Completes (fun f => f.log = .ok) (qs ++ rs) t v (ds ++ es) where
  other q hq := by
    rw [mem_append, not_or] at hq
    rw [h'.other q hq.2, h.other q hq.1]
  left q f' hf' := by
    obtain ⟨g, hg, hid, hclaim, hstuck, hcarried, hlocal, hlog⟩ := h'.left q f' hf'
    obtain ⟨f, hf, hid', hclaim', hstuck', hcarried', hlocal', hlog'⟩ := h.left q g hg
    refine ⟨f, hf, hid.trans hid', hclaim.trans hclaim', hstuck.trans hstuck',
      hcarried.trans hcarried', fun hok => ?_, hlog.trans hlog'⟩
    rcases hlocal hok with hg | hq
    · exact (hlocal' hg).imp id (mem_append_left _)
    · exact .inr (mem_append_right _ hq)
  gone q f hf hgone := by
    cases hg : faceAt u q with
    | none =>
      obtain ⟨hq, hP⟩ := h.gone q f hf hg
      exact ⟨mem_append_left _ hq, hP⟩
    | some g =>
      obtain ⟨hq, hP⟩ := h'.gone q g hg hgone
      obtain ⟨f', hf', _, _, _, _, _, hlog⟩ := h.left q g hg
      obtain rfl := some.inj (hf.symm.trans hf')
      exact ⟨mem_append_right _ hq, hlog.symm.trans hP⟩
  done x hx := by
    rcases mem_append.1 hx with hx | hx
    · obtain ⟨q, hq, f, hf, hP, hid, hclaim⟩ := h.done x hx
      exact ⟨q, mem_append_left _ hq, f, hf, hP, hid, hclaim⟩
    · obtain ⟨q, hq, g, hg, hP, hid, hclaim⟩ := h'.done x hx
      obtain ⟨f, hf, hid', hclaim', _, _, _, hlog⟩ := h.left q g hg
      exact ⟨q, mem_append_right _ hq, f, hf, hlog.symm.trans hP, hid.trans hid',
        hclaim.trans hclaim'⟩
  holding c := by
    rw [h.holding c, h'.holding c, countP_append]
    omega

theorem localAll_completes (t : Table) (seqs : List Nat) :
    Completes (fun f => f.log = .ok) seqs t (t.localAll seqs).1 (t.localAll seqs).2 := by
  induction seqs generalizing t with
  | nil => exact .refl _ _ t
  | cons q seqs ih => exact (localOne_completes t q).trans (ih _)

theorem localDone_completes (t : Table) (b : Nat) :
    Completes (fun f => f.log = .ok) (((t.batches.get b).map Plan.seqs).getD []) t (t.localDone b).1
      (t.localDone b).2 := by
  unfold localDone
  cases hb : t.batches.get b with
  | none => exact .refl _ _ t
  | some plan =>
    have h := localAll_completes { t with batches := t.batches.set b none } plan.seqs
    exact { h with }

/-! ## The invariant -/

/-- Where a claim is: settled, about to be written by a `hold/3` call, in an entry, or with a
    completed entry on its way to the reconciler. -/
def State.places (s : State) (c : Claim) : Int :=
  s.settled.countP (fun x => x.1 = c) +
    s.holders.countP (fun h => h.phase = .writing ∧ h.claim = c) +
    holding s.table c + s.handed.countP (bears c)

/-- Every claim is in one place, and an entry with a claim is carried. -/
structure Owned (s : State) : Prop where
  described : Described s.shared
  places : ∀ c, s.places c = if c ∈ s.begun.map Prod.fst then 1 else 0
  nodup : (s.begun.map Prod.fst).Nodup ∧ (s.begun.map Prod.snd).Nodup
  claims : ∀ q f c, faceAt s.table q = some f → f.claim = some c →
    (c, f.id) ∈ s.begun ∧ f.carried = true
  flags : ∀ q f, faceAt s.table q = some f →
    (f.local_ = .ok → f.id ∈ s.stored) ∧ (f.log = .ok → f.id ∈ s.logged)
  handed : ∀ x ∈ s.handed, (x.2.id ∈ s.stored ∧ x.2.id ∈ s.logged) ∧
    ∀ c, x.2.claim = some c → (c, x.2.id) ∈ s.begun
  halved : ∀ id ∈ s.halved, (∃ q f, faceAt s.table q = some f ∧ f.id = id ∧ f.carried = true) ∨
    id ∈ s.stored ∧ id ∈ s.logged
  holder : ∀ h ∈ s.holders, (h.claim, h.id) ∈ s.begun ∧
    ((∃ f, faceAt s.table h.seq = some f ∧ f.id = h.id ∧ f.carried = true ∧ f.stuck = false) ∨
      faceAt s.table h.seq = none ∧ h.id ∈ s.stored ∧ h.id ∈ s.logged)
  checking : ∀ h ∈ s.holders, h.phase = .checking →
    ∃ f, faceAt s.table h.seq = some f ∧ f.claim = some h.claim
  taking : ∀ q, s.taking.seq? = some q →
    (∀ f, faceAt s.table q = some f → f.stuck = true) ∧ ∀ h ∈ s.holders, h.seq ≠ q
  read : ∀ q c, s.taking = .read q (some c) → ∃ f, faceAt s.table q = some f ∧ f.claim = some c
  promoted : ∀ c id, (c, .promoted) ∈ s.settled → (c, id) ∈ s.begun → id ∈ s.stored ∧ id ∈ s.logged

theorem Owned.start : Owned .start := by
  refine ⟨Described.start, fun c => ?_, ?_, ?_, ?_, ?_, ?_, ?_, ?_, ?_, ?_, ?_⟩ <;>
    simp [State.start, State.places, State.table, Shared.start, Table.empty, holding, Map.total,
      faceAt, Taking.seq?]

variable {s : State} {sh : Shared}

/-- A call on the table: what it takes out, at `seqs` that nobody works on, is confirmed in both
    places. -/
theorem Owned.evolve (h : Owned s) (st lg hv : List String) (new seqs : List Nat)
    (ds : List (Nat × Entry))
    {handed : List (Nat × Entry)} (hhanded : handed = s.handed ++ ds) (hd : Described sh)
    (hleft : ∀ q f', faceAt sh.table q = some f' →
      (∃ f, faceAt s.table q = some f ∧ f'.id = f.id ∧ f'.claim = f.claim ∧ f'.stuck = f.stuck ∧
        (f.carried = true → f'.carried = true) ∧ (f'.local_ = .ok → f.local_ = .ok ∨ f.id ∈ st) ∧
        (f'.log = .ok → f.log = .ok ∨ f.id ∈ lg)) ∨
      q ∈ new ∧ f'.claim = none ∧ f'.local_ = .missing ∧ f'.log = .missing)
    (hkept : ∀ q f, faceAt s.table q = some f → f.carried = true →
      (∃ f', faceAt sh.table q = some f' ∧ f'.id = f.id ∧ f'.claim = f.claim ∧ f'.stuck = f.stuck ∧
        f'.carried = true) ∨
      q ∈ seqs ∧ faceAt sh.table q = none ∧ f.id ∈ st ++ s.stored ∧ f.id ∈ lg ++ s.logged)
    (hdone : ∀ x ∈ ds, ∃ q f, faceAt s.table q = some f ∧
      (f.id ∈ st ++ s.stored ∧ f.id ∈ lg ++ s.logged) ∧ x.2.id = f.id ∧ x.2.claim = f.claim)
    (hholding : ∀ c, holding s.table c = holding sh.table c + ds.countP (bears c))
    (hfree : ∀ q ∈ seqs, s.free q)
    (hnew : ∀ q ∈ new, (∀ h ∈ s.holders, h.seq ≠ q) ∧ s.taking.seq? ≠ some q)
    (hhv : ∀ id ∈ hv, ∃ q f, faceAt sh.table q = some f ∧ f.id = id ∧ f.carried = true) :
    Owned { s with
      shared := sh, handed, halved := hv ++ s.halved, stored := st ++ s.stored,
      logged := lg ++ s.logged } := by
  subst hhanded
  have hboth : ∀ {id}, id ∈ s.stored ∧ id ∈ s.logged → id ∈ st ++ s.stored ∧ id ∈ lg ++ s.logged :=
    fun hid => ⟨mem_append_right _ hid.1, mem_append_right _ hid.2⟩
  -- A seq a call works on gets no new entry, and a claimed one keeps its claim.
  have hold : ∀ q, q ∉ new → faceAt s.table q = none → faceAt sh.table q = none := by
    intro q hq hnone
    cases hu : faceAt sh.table q with
    | none => rfl
    | some f' =>
      rcases hleft q f' hu with ⟨f, hf, _⟩ | ⟨hmem, _⟩
      · rw [hnone] at hf
        cases hf
      · exact absurd hmem hq
  have hclaimed : ∀ q c, ¬ s.free q → (∃ f, faceAt s.table q = some f ∧ f.claim = some c) →
      ∃ f, faceAt sh.table q = some f ∧ f.claim = some c := by
    rintro q c hbusy ⟨f, hf, hclaim⟩
    rcases hkept q f hf (h.claims q f c hf hclaim).2 with ⟨f', hf', _, hclaim', _⟩ | ⟨hq, _⟩
    · exact ⟨f', hf', hclaim'.trans hclaim⟩
    · exact absurd (hfree q hq) hbusy
  refine ⟨hd, fun c => ?_, h.nodup, fun q f' c hf' hc => ?_, fun q f' hf' => ?_, fun x hx => ?_,
    fun id hid => ?_, fun w hw => ?_, fun w hw hphase => ?_, fun q hq => ?_, fun q c hq => ?_,
    fun c id hc hid => hboth (h.promoted c id hc hid)⟩
  · have hhold := hholding c
    refine Eq.trans ?_ (h.places c)
    unfold State.places
    simp only [State.table, countP_append] at hhold ⊢
    omega
  · rcases hleft q f' hf' with ⟨f, hf, hid, hclaim, _, hcarried, _⟩ | ⟨_, hnone, _⟩
    · obtain ⟨hbegun, hc'⟩ := h.claims q f c hf (hclaim.symm.trans hc)
      exact ⟨hid ▸ hbegun, hcarried hc'⟩
    · rw [hnone] at hc
      cases hc
  · rcases hleft q f' hf' with ⟨f, hf, hid, _, _, _, hlocal, hlog⟩ | ⟨_, _, hlocal, hlog⟩
    · obtain ⟨hst, hlg⟩ := h.flags q f hf
      rw [hid]
      exact ⟨fun hok => mem_append.2 ((hlocal hok).symm.imp_right hst),
        fun hok => mem_append.2 ((hlog hok).symm.imp_right hlg)⟩
    · simp [hlocal, hlog]
  · rcases mem_append.1 hx with hx | hx
    · exact ⟨hboth (h.handed x hx).1, (h.handed x hx).2⟩
    · obtain ⟨q, f, hf, hconfirmed, hid, hcl⟩ := hdone x hx
      rw [hid, hcl]
      exact ⟨hconfirmed, fun c hc => (h.claims q f c hf hc).1⟩
  · rcases mem_append.1 hid with hid | hid
    · exact .inl (hhv id hid)
    · rcases h.halved id hid with ⟨q, f, hf, hfid, hc⟩ | hdone
      · rcases hkept q f hf hc with ⟨f', hf', hid', _, _, hc'⟩ | ⟨_, _, hconfirmed⟩
        · exact .inl ⟨q, f', hf', hid'.trans hfid, hc'⟩
        · exact .inr (hfid ▸ hconfirmed)
      · exact .inr (hboth hdone)
  · obtain ⟨hbegun, hwhere⟩ := h.holder w hw
    refine ⟨hbegun, ?_⟩
    rcases hwhere with ⟨f, hf, hfid, hc, hs⟩ | ⟨hnone, hdone⟩
    · rcases hkept _ f hf hc with ⟨f', hf', hid', _, hs', hc'⟩ | ⟨_, hnone, hconfirmed⟩
      · exact .inl ⟨f', hf', hid'.trans hfid, hc', hs'.trans hs⟩
      · exact .inr ⟨hnone, hfid ▸ hconfirmed⟩
    · exact .inr ⟨hold _ (fun hmem => (hnew _ hmem).1 w hw rfl) hnone, hboth hdone⟩
  · refine hclaimed _ _ (fun hf => ?_) (h.checking w hw hphase)
    have hwriting := hf.1 w hw rfl
    rw [hphase] at hwriting
    cases hwriting
  · obtain ⟨hstuck, hfar⟩ := h.taking q hq
    refine ⟨fun f' hf' => ?_, hfar⟩
    rcases hleft q f' hf' with ⟨f, hf, _, _, hs, _⟩ | ⟨hmem, _⟩
    · exact hs.trans (hstuck f hf)
    · exact absurd hq (hnew q hmem).2
  · refine hclaimed q c (fun hf => hf.2 ?_) (h.read q c hq)
    rw [show s.taking = .read q (some c) from hq]
    rfl

/-- The completion of a half: what it takes out is confirmed in both places. -/
theorem Owned.completes (h : Owned s) (st lg : List String) (hd : Described ⟨u, s.shared.inflight⟩)
    (hc : Completes P seqs s.table u ds) (hfree : ∀ q ∈ seqs, s.free q)
    (hst : ∀ q ∈ seqs, ∀ f, faceAt s.table q = some f → f.local_ = .ok ∨ f.id ∈ st)
    (hboth : ∀ q ∈ seqs, ∀ f, faceAt s.table q = some f → P f →
      f.id ∈ st ++ s.stored ∧ f.id ∈ lg ++ s.logged) :
    Owned { s.setTable u with
      handed := s.handed ++ ds, stored := st ++ s.stored, logged := lg ++ s.logged } := by
  refine h.evolve st lg [] [] seqs ds rfl hd (fun q f' hf' => .inl ?_) (fun q f hf hcar => ?_)
    (fun x hx => ?_) hc.holding hfree (forall_mem_nil _) (forall_mem_nil _)
  · obtain ⟨f, hf, hid, hcl, hs, hcarried, hlocal, hlog⟩ := hc.left q f' hf'
    exact ⟨f, hf, hid, hcl, hs, hcarried.trans, fun hok => (hlocal hok).elim .inl (hst q · f hf),
      fun hok => .inl (hlog.symm.trans hok)⟩
  · cases hu : faceAt u q with
    | none =>
      obtain ⟨hq, hP⟩ := hc.gone q f hf hu
      exact .inr ⟨hq, hu, hboth q hq f hf hP⟩
    | some f' =>
      obtain ⟨g, hg, hid, hcl, hs, hcarried, _⟩ := hc.left q f' hu
      obtain rfl := some.inj (hf.symm.trans hg)
      exact .inl ⟨f', hu, hid, hcl, hs, hcarried.trans hcar⟩
  · obtain ⟨q, hq, f, hf, hP, hid, hcl⟩ := hc.done x hx
    exact ⟨q, f, hf, hboth q hq f hf hP, hid, hcl⟩

/-! ## One step -/

variable {id : String}

theorem mem_idsAt : id ∈ idsAt t seqs ↔ ∃ q ∈ seqs, ∃ f, faceAt t q = some f ∧ f.id = id := by
  simp only [idsAt, mem_filterMap, map_eq_some_iff, faceAt]
  constructor
  · rintro ⟨q, hq, e, he, rfl⟩
    exact ⟨q, hq, face e, ⟨e, he, rfl⟩, rfl⟩
  · rintro ⟨q, hq, _, ⟨e, he, rfl⟩, rfl⟩
    exact ⟨q, hq, e, he, rfl⟩

theorem Owned.enter (h : Owned s) {b : Nat} {now : Ms}
    (hex : Exclusive s (.table (.enter records b now)))
    (hstep : Pending.step s.shared (.enter records b now) = some sh) :
    Owned { s with shared := sh } := by
  obtain ⟨hapart, hfar⟩ := hex
  have hd := h.described.step (.enter records b now) hapart hstep
  obtain ⟨hok, rfl⟩ := guarded hstep
  refine h.evolve [] [] [] (records.map Rec.seq) [] [] (append_nil _).symm hd ?_
    (fun q f hf hc => .inl ?_)
    (forall_mem_nil _) (fun c => ?_) (forall_mem_nil _) ?_ (forall_mem_nil _)
  · intro q f' hf'
    rcases faceAt_enter records b now q with ⟨_, hsame⟩ | ⟨r, hr, rfl, hface⟩
    · exact .inl ⟨f', hsame.symm.trans hf', rfl, rfl, rfl, id, .inl, .inl⟩
    · obtain rfl := some.inj (hface.symm.trans hf')
      exact .inr ⟨mem_map_of_mem hr, rfl, rfl, rfl⟩
  · rcases faceAt_enter records b now q with ⟨_, hsame⟩ | ⟨r, hr, rfl, _⟩
    · exact ⟨f, hsame.trans hf, rfl, rfl, rfl, hc⟩
    · simp only [faceAt, (hapart.fresh r hr).seq] at hf
      cases hf
  · exact (holding_enter hapart.fresh b now c).symm.trans (Int.add_zero _).symm
  · exact forall_mem_map.2 hfar

theorem Owned.idle (h : Owned s) {f : Flight} (hf : f ∈ s.shared.inflight) {g : Face}
    (hq : q ∈ f.records.map Rec.seq) (hg : faceAt s.table q = some g) : g.carried = false := by
  obtain ⟨e, he, rfl⟩ := map_eq_some_iff.1 hg
  simp [face, h.described.flown.idle hf hq he]

variable {i : Nat}

section

variable (h : Owned s)
include h

theorem Owned.confirm {p : Option Nat}
    (hstep : Pending.step s.shared (.confirm i p) = some sh) : Owned { s with shared := sh } := by
  have hd := h.described.step (.confirm i p) trivial hstep
  obtain ⟨f, hi, rfl⟩ := map_eq_some_iff.1 hstep
  have hmem := mem_of_getElem? hi
  refine h.evolve [] [] [] [] [] [] (append_nil _).symm hd (fun q f' hf' => ?_)
    (fun q g hg hc => .inl ?_)
    (forall_mem_nil _) (fun c => ?_) (forall_mem_nil _) (forall_mem_nil _) (forall_mem_nil _)
  · rw [faceAt_confirm] at hf'
    split at hf'
    · cases hf'
    · exact .inl ⟨f', hf', rfl, rfl, rfl, id, .inl, .inl⟩
  · have hq : q ∉ f.records.map Rec.seq := fun hq => by
      rw [h.idle hmem hq hg] at hc
      cases hc
    exact ⟨g, by rw [faceAt_confirm, if_neg hq]; exact hg, rfl, rfl, rfl, hc⟩
  · refine (holding_confirm (fun q hq e he => ?_) p c).symm.trans (Int.add_zero _).symm
    have hg : faceAt s.table q = some (face e) := by simp [faceAt, he]
    cases hclaim : e.claim with
    | none => rfl
    | some c =>
      have hc := (h.claims q (face e) c hg hclaim).2
      rw [h.idle hmem hq hg] at hc
      cases hc

theorem Owned.carry {o : Outcome} {ops : List Op} {time now : Ms}
    (hstep : Pending.step s.shared (.carry i o ops time now) = some sh) :
    Owned { s with
      shared := sh
      halved := carriedIds s.shared (.carry i o ops time now) ++ s.halved
      stored := storedIds s.shared (.carry i o ops time now) ++ s.stored
      logged := loggedIds s.shared (.carry i o ops time now) ++ s.logged } := by
  have hd := h.described.step (.carry i o ops time now) trivial hstep
  obtain ⟨f, hi, hsh⟩ := map_eq_some_iff.1 hstep
  have hids : carriedIds s.shared (.carry i o ops time now) =
      idsAt s.table (f.records.map Rec.seq) := by
    simp [carriedIds, hi, State.table]
  have hface : ∀ q, faceAt sh.table q = if q ∈ f.records.map Rec.seq then
      (faceAt s.table q).map fun g => { g with local_ := o.local_, log := o.log, carried := true }
      else faceAt s.table q := by
    rw [← hsh]
    exact faceAt_carry o f.records f.batch _ now
  refine h.evolve _ _ _ [] [] [] (append_nil _).symm hd (fun q f' hf' => ?_)
    (fun q g hg hc => .inl ?_)
    (forall_mem_nil _) (fun c => ?_) (forall_mem_nil _) (forall_mem_nil _) ?_
  · rw [hface] at hf'
    split at hf'
    next hq =>
      obtain ⟨g, hg, rfl⟩ := map_eq_some_iff.1 hf'
      have hmem : g.id ∈ carriedIds s.shared (.carry i o ops time now) := by
        rw [hids]
        exact mem_idsAt.2 ⟨q, hq, g, hg, rfl⟩
      refine .inl ⟨g, hg, rfl, rfl, rfl, fun _ => rfl, fun hok => .inr ?_, fun hok => .inr ?_⟩
      · have hok : o.local_ = .ok := hok
        rw [storedIds, if_pos hok]
        exact hmem
      · have hok : o.log = .ok := hok
        rw [loggedIds, if_pos hok]
        exact hmem
    · exact .inl ⟨f', hf', rfl, rfl, rfl, id, .inl, .inl⟩
  · by_cases hq : q ∈ f.records.map Rec.seq
    · refine ⟨{ g with local_ := o.local_, log := o.log, carried := true }, ?_, rfl, rfl, rfl, rfl⟩
      rw [hface, if_pos hq, hg]
      rfl
    · exact ⟨g, by rw [hface, if_neg hq]; exact hg, rfl, rfl, rfl, hc⟩
  · rw [← hsh]
    exact (holding_carry o f.records f.batch _ now c).symm.trans (Int.add_zero _).symm
  · intro id hid
    rw [hids] at hid
    obtain ⟨q, hq, g, hg, rfl⟩ := mem_idsAt.1 hid
    refine ⟨q, { g with local_ := o.local_, log := o.log, carried := true }, ?_, rfl, rfl⟩
    rw [hface, if_pos hq, hg]
    rfl

theorem Owned.same (hd : Described sh) (hface : ∀ q, faceAt sh.table q = faceAt s.table q)
    (hhold : ∀ c, Claims.holding sh.table c = Claims.holding s.table c) :
    Owned { s with shared := sh } :=
  h.evolve [] [] [] [] [] [] (append_nil _).symm hd
    (fun q f' hf' => .inl ⟨f', (hface q).symm.trans hf', rfl, rfl, rfl, id, .inl, .inl⟩)
    (fun q f hf hc => .inl ⟨f, (hface q).trans hf, rfl, rfl, rfl, hc⟩) (forall_mem_nil _)
    (fun c => by simp [hhold]) (forall_mem_nil _) (forall_mem_nil _) (forall_mem_nil _)

theorem Owned.table {ev : Pending.Event} (hex : Exclusive s (.table ev))
    (hplain : plain ev = true) (hstep : Pending.step s.shared ev = some sh) :
    Owned { s with
      shared := sh
      halved := carriedIds s.shared ev ++ s.halved
      stored := storedIds s.shared ev ++ s.stored
      logged := loggedIds s.shared ev ++ s.logged } := by
  cases ev with
  | enter => exact h.enter hex hstep
  | confirm => exact h.confirm hstep
  | carry => exact h.carry hstep
  | reschedule q n =>
    have hd := h.described.step (.reschedule q n) trivial hstep
    obtain ⟨hcarried, rfl⟩ := guarded hstep
    exact h.same hd (faceAt_reschedule hcarried n)
      (holding_congr fun q' => congrArg (Option.bind · Face.claim)
        (faceAt_reschedule hcarried n q'))
  | bumpConfirmed p =>
    have hd := h.described.step (.bumpConfirmed p) trivial hstep
    cases hstep
    exact h.same hd (fun q => by simp [faceAt, State.table]) (holding_bumpConfirmed _)
  | crash =>
    have hd := h.described.step .crash trivial hstep
    cases hstep
    exact h.same hd (fun _ => rfl) (fun _ => rfl)
  | localDone | logDone | markStuck | takeClaim | hold => cases hplain

theorem Owned.localDone {b : Nat} (hex : Exclusive s (.localDone b)) :
    Owned { s.setTable (s.table.localDone b).1 with
      handed := s.handed ++ (s.table.localDone b).2
      stored := idsAt s.table (((s.table.batches.get b).map Plan.seqs).getD []) ++ s.stored } := by
  refine h.completes _ [] (h.described.localDone b) (localDone_completes s.table b) hex
    (fun q hq f hf => .inr ?_) fun q hq f hf hlog => ⟨?_, ?_⟩
  · exact mem_idsAt.2 ⟨q, hq, f, hf, rfl⟩
  · exact mem_append_left _ (mem_idsAt.2 ⟨q, hq, f, hf, rfl⟩)
  · exact (h.flags q f hf).2 hlog

theorem Owned.logDone {p : Nat} (hstored : s.table.storedAt q) (hex : s.free q) :
    Owned { s.setTable (s.table.logDone q p).1 with
      handed := s.handed ++ (s.table.logDone q p).2
      logged := idsAt s.table [q] ++ s.logged } := by
  have hlocal : ∀ f, faceAt s.table q = some f → f.local_ = .ok := by
    intro f hf
    obtain ⟨e, he, rfl⟩ := map_eq_some_iff.1 hf
    have hok : e.nextAt.isSome ∧ e.local_ = .ok := by simpa [storedAt, he] using hstored
    exact hok.2
  refine h.completes [] _ (h.described.logDone hstored p) (logDone_completes hstored p)
    (fun q' hq' => ?_) (fun q' hq' f hf => .inl ?_) fun q' hq' f hf hok => ⟨?_, ?_⟩
  · obtain rfl := mem_singleton.1 hq'
    exact hex
  · obtain rfl := mem_singleton.1 hq'
    exact hlocal f hf
  · exact (h.flags q' f hf).1 hok
  · exact mem_append_left _ (mem_idsAt.2 ⟨q', hq', f, hf, rfl⟩)

end

theorem countP_eraseIdx {α : Type} {l : List α} {x : α} (p : α → Bool) (hi : l[i]? = some x) :
    l.countP p = (l.eraseIdx i).countP p + if p x then 1 else 0 := by
  obtain ⟨hlt, rfl⟩ := List.getElem?_eq_some_iff.1 hi
  rw [← (getElem_cons_eraseIdx_perm hlt).countP_eq p, countP_cons]

theorem places_settle (s : State) (c₀ : Claim) (how : Settlement) (c : Claim) :
    (s.settle c₀ how).places c = s.places c + if c₀ = c then 1 else 0 := by
  unfold State.places
  by_cases h : c₀ = c <;> simp [State.settle, State.table, h]
  omega

variable {x : Nat × Entry} {w : Holder}

theorem places_handed (hi : s.handed[i]? = some x) (c : Claim) :
    State.places { s with handed := s.handed.eraseIdx i } c =
      s.places c - if x.2.claim = some c then 1 else 0 := by
  have hcount := countP_eraseIdx (bears c) hi
  unfold State.places
  by_cases h : x.2.claim = some c <;> simp [State.table, h, bears] at hcount ⊢ <;> omega

theorem places_holders (hi : s.holders[i]? = some w) (c : Claim) :
    State.places { s with holders := s.holders.eraseIdx i } c =
      s.places c - if w.phase = .writing ∧ w.claim = c then 1 else 0 := by
  have hcount := countP_eraseIdx (fun h : Holder => h.phase = .writing ∧ h.claim = c) hi
  unfold State.places
  by_cases h : w.phase = .writing ∧ w.claim = c <;> simp [State.table, h] at hcount ⊢ <;> omega

theorem places_setTable (s : State) (u : Table) (c : Claim) :
    (s.setTable u).places c = s.places c + (holding u c - holding s.table c) := by
  unfold State.places
  simp only [State.setTable, State.table]
  omega

theorem Owned.hook_eq (h : Owned s) {id' : String} (hid : (c, id) ∈ s.begun)
    (hid' : (c, id') ∈ s.begun) : id = id' :=
  (Prod.ext_iff.1 (inj_on_of_nodup_map h.nodup.1 hid hid' rfl)).2

theorem Owned.claim_eq (h : Owned s) {c' : Claim} (hc : (c, id) ∈ s.begun)
    (hc' : (c', id) ∈ s.begun) : c = c' :=
  (Prod.ext_iff.1 (inj_on_of_nodup_map h.nodup.2 hc hc' rfl)).1

/-- The reconciler promotes the claim of a completed entry. -/
theorem Owned.promote (h : Owned s) (hi : s.handed[i]? = some x) : Owned (match x.2.claim with
      | none => { s with handed := s.handed.eraseIdx i }
      | some c => State.settle { s with handed := s.handed.eraseIdx i } c .promoted) := by
  obtain ⟨hboth, hbegun⟩ := h.handed x (mem_of_getElem? hi)
  have hsub : ∀ y ∈ s.handed.eraseIdx i, y ∈ s.handed := fun y hy => mem_of_mem_eraseIdx hy
  have hplaces := places_handed hi
  cases hclaim : x.2.claim with
  | none =>
    refine { h with places := fun c => ?_, handed := fun y hy => h.handed y (hsub y hy) }
    rw [hplaces, hclaim, h.places]
    simp
  | some =>
    refine { h with
      places := fun c => ?_
      handed := fun y hy => h.handed y (hsub y hy)
      promoted := fun c id hc hid => ?_ }
    · refine Eq.trans ?_ (h.places c)
      rw [places_settle, hplaces, hclaim]
      simp
    · rcases mem_cons.1 hc with hc | hc
      · obtain rfl := (Prod.ext_iff.1 hc).1
        obtain rfl := h.hook_eq hid (hbegun _ hclaim)
        exact hboth
      · exact h.promoted c id hc hid

/-- What marking an entry or writing its claim leaves alone. -/
def Face.base (f : Face) : String × Half × Half × Bool := (f.id, f.local_, f.log, f.carried)

section

variable (h : Owned s)
include h

/-- One entry is marked, or its claim is written or cleared. -/
theorem Owned.revise (hs : List Holder) (tk : Taking)
    (ss : List (Claim × Settlement)) (hd : Described ⟨u, s.shared.inflight⟩)
    (hother : ∀ q', q' ≠ q → faceAt u q' = faceAt s.table q')
    (hbase : (faceAt u q).map Face.base = (faceAt s.table q).map Face.base)
    (hplaces : ∀ c, State.places
      { s.setTable u with holders := hs, taking := tk, settled := ss } c = s.places c)
    (hclaims : ∀ f c, faceAt u q = some f → f.claim = some c →
      (c, f.id) ∈ s.begun ∧ f.carried = true)
    (hholders : ∀ w ∈ hs, w ∈ s.holders ∧ w.seq ≠ q ∨ w.seq = q ∧ (w.claim, w.id) ∈ s.begun ∧
      ∃ f, faceAt u q = some f ∧ f.id = w.id ∧ f.carried = true ∧ f.stuck = false ∧
      f.claim = some w.claim)
    (htaking : ∀ q', tk.seq? = some q' → q' ≠ q ∧ tk = s.taking ∨
      tk = .marked q ∧ (∀ f, faceAt u q = some f → f.stuck = true) ∧ ∀ w ∈ hs, w.seq ≠ q)
    (hpromoted : ∀ c, (c, .promoted) ∈ ss → (c, .promoted) ∈ s.settled) :
    Owned { s.setTable u with holders := hs, taking := tk, settled := ss } := by
  -- The entry keeps what is not marked or claimed.
  have hleft : ∀ q' f', faceAt u q' = some f' → ∃ f, faceAt s.table q' = some f ∧
      f'.base = f.base := by
    intro q' f' hf'
    by_cases hq : q' = q
    · subst hq
      rw [hf', map_some] at hbase
      obtain ⟨f, hf, hb⟩ := map_eq_some_iff.1 hbase.symm
      exact ⟨f, hf, hb.symm⟩
    · exact ⟨f', (hother q' hq).symm.trans hf', rfl⟩
  have hkept : ∀ q' f, faceAt s.table q' = some f → ∃ f',
      faceAt u q' = some f' ∧ f'.base = f.base := by
    intro q' f hf
    by_cases hq : q' = q
    · subst hq
      rw [hf, map_some] at hbase
      exact map_eq_some_iff.1 hbase
    · exact ⟨f, (hother q' hq).trans hf, rfl⟩
  refine ⟨hd, fun c => (hplaces c).trans (h.places c), h.nodup, fun q' f' c hf' hc => ?_,
    fun q' f' hf' => ?_, h.handed, fun id hid => ?_, fun w hw => ?_, fun w hw hphase => ?_,
    fun q' hq' => ?_, fun q' c hq' => ?_, fun c id hc hid => h.promoted c id (hpromoted c hc) hid⟩
  · by_cases hq : q' = q
    · exact hclaims f' c (hq ▸ hf') hc
    · exact h.claims q' f' c ((hother q' hq).symm.trans hf') hc
  · obtain ⟨f, hf, hb⟩ := hleft q' f' hf'
    simp only [Face.base, Prod.mk.injEq] at hb
    rw [hb.1, hb.2.1, hb.2.2.1]
    exact h.flags q' f hf
  · rcases h.halved id hid with ⟨q', f, hf, hfid, hc⟩ | hdone
    · obtain ⟨f', hf', hb⟩ := hkept q' f hf
      simp only [Face.base, Prod.mk.injEq] at hb
      exact .inl ⟨q', f', hf', hb.1.trans hfid, hb.2.2.2.trans hc⟩
    · exact .inr hdone
  · rcases hholders w hw with ⟨hmem, hne⟩ | ⟨hq, hbegun, f, hf, hid, hcar, hst, _⟩
    · obtain ⟨hbegun, hwhere⟩ := h.holder w hmem
      refine ⟨hbegun, ?_⟩
      have hsame := hother w.seq hne
      rcases hwhere with ⟨f, hf, hrest⟩ | ⟨hnone, hdone⟩
      · exact .inl ⟨f, hsame.trans hf, hrest⟩
      · exact .inr ⟨hsame.trans hnone, hdone⟩
    · exact ⟨hbegun, .inl ⟨f, hq ▸ hf, hid, hcar, hst⟩⟩
  · rcases hholders w hw with ⟨hmem, hne⟩ | ⟨hq, _, f, hf, _, _, _, hclaim⟩
    · obtain ⟨f, hf, hclaim⟩ := h.checking w hmem hphase
      exact ⟨f, (hother w.seq hne).trans hf, hclaim⟩
    · exact ⟨f, hq ▸ hf, hclaim⟩
  · rcases htaking q' hq' with ⟨hne, htk⟩ | ⟨htk, hstuck, hfar⟩
    · obtain ⟨hstuck, hfar⟩ := h.taking q' (htk ▸ hq')
      refine ⟨fun f hf => hstuck f ((hother q' hne).symm.trans hf), fun w hw => ?_⟩
      rcases hholders w hw with ⟨hmem, _⟩ | ⟨hq, _⟩
      · exact hfar w hmem
      · rw [hq]
        exact hne.symm
    · have hq : q' = q := by
        rw [show tk.seq? = some q by rw [htk]; rfl] at hq'
        exact (some.inj hq').symm
      subst hq
      exact ⟨hstuck, hfar⟩
  · have hq' : tk = .read q' (some c) := hq'
    rcases htaking q' (by rw [hq']; rfl) with ⟨hne, htk⟩ | ⟨htk, _⟩
    · obtain ⟨f, hf, hclaim⟩ := h.read q' c (htk ▸ hq')
      exact ⟨f, (hother q' hne).trans hf, hclaim⟩
    · rw [htk] at hq'
      cases hq'

/-- The reconciler marks an entry stuck that no `hold/3` call works on. -/
theorem Owned.mark (hex : ∀ w ∈ s.holders, w.seq ≠ q) :
    Owned { s.setTable (s.table.markStuck q).1 with
      taking := if (s.table.markStuck q).2 then .marked q else .idle } := by
  have hface := faceAt_markStuck (t := s.table) q
  refine h.revise s.holders _ s.settled (h.described.markStuck q) (fun q' hq' => ?_) ?_
    (fun c => ?_) (fun f' c hf' hc => ?_) (fun w hw => .inl ⟨hw, hex w hw⟩) (fun q' hq' => ?_)
    fun _ => id
  · rw [hface, if_neg hq']
  · rw [hface, if_pos rfl, Option.map_map]
    rfl
  · refine (places_setTable s (s.table.markStuck q).1 c).trans ?_
    rw [holding_markStuck]
    omega
  · rw [hface, if_pos rfl] at hf'
    obtain ⟨f, hf, rfl⟩ := map_eq_some_iff.1 hf'
    exact h.claims q f c hf hc
  · right
    split at hq'
    next hmarked =>
      refine ⟨if_pos hmarked, fun f' hf' => ?_, hex⟩
      rw [hface, if_pos rfl] at hf'
      obtain ⟨f, _, rfl⟩ := map_eq_some_iff.1 hf'
      rfl
    · cases hq'

theorem Owned.takeRead (hq : s.taking = .marked q) :
    Owned { s with taking := .read q ((s.table.entries.get q).bind Entry.claim) } := by
  refine { h with taking := fun q' hq' => ?_, read := fun q' c hq' => ?_ }
  · cases hq'
    exact h.taking q (by rw [hq]; rfl)
  · obtain ⟨rfl, hclaim⟩ := Taking.read.inj hq'
    obtain ⟨e, he, hc⟩ := bind_eq_some_iff.1 hclaim
    exact ⟨face e, congrArg (Option.map face) he, hc⟩

/-- It clears the claim and releases it. -/
theorem Owned.takeClear (hq : s.taking = .read q (some c)) :
    Owned (State.settle { s.setTable (s.table.update q fun e => { e with claim := none }) with
      taking := .idle } c .released) := by
  obtain ⟨f, hf, hclaim⟩ := h.read q c hq
  obtain ⟨-, hfar⟩ := h.taking q (by rw [hq]; rfl)
  have hface := faceAt_setClaim (t := s.table) q none
  refine h.revise s.holders .idle ((c, .released) :: s.settled) (h.described.setClaim q none)
    (fun q' hq' => ?_) ?_ (fun c' => ?_) (fun f' c' hf' hc' => ?_)
    (fun w hw => .inl ⟨hw, hfar w hw⟩) (fun q' hq' => ?_) fun c' hc' => ?_
  · rw [hface, if_neg hq']
  · rw [hface, if_pos rfl, Option.map_map]
    rfl
  · refine (places_settle { s.setTable _ with taking := .idle } c .released c').trans ?_
    refine (congrArg (· + _) (places_setTable s _ c')).trans ?_
    rw [holding_setClaim hf, hclaim]
    simp
  · rw [hface, if_pos rfl] at hf'
    obtain ⟨g, _, rfl⟩ := map_eq_some_iff.1 hf'
    cases hc'
  · cases hq'
  · rcases mem_cons.1 hc' with hc' | hc'
    · cases hc'
    · exact hc'

theorem Owned.holdFind_eq (hf : faceAt s.table q = some f) (hc : f.carried = true) :
    s.table.holdFind f.id = some (q, f.stuck) := by
  obtain ⟨e, he, rfl⟩ := map_eq_some_iff.1 hf
  have hid : s.table.ids.get e.id = some q := (h.described.indexed.ids_self he e.id).2 ⟨rfl, hc⟩
  simp [holdFind, face, hid, he]

theorem Owned.of_holdFind {b : Bool} (hfind : s.table.holdFind id = some (q, b)) :
    ∃ f, faceAt s.table q = some f ∧ f.id = id ∧ f.carried = true ∧ f.stuck = b := by
  obtain ⟨q', hq', hmap⟩ := bind_eq_some_iff.1 hfind
  obtain ⟨e, he, heq⟩ := map_eq_some_iff.1 hmap
  obtain ⟨rfl, rfl⟩ := Prod.ext_iff.1 heq
  obtain ⟨hid, hc⟩ := (h.described.indexed.ids_self he id).1 hq'
  exact ⟨face e, congrArg (Option.map face) he, hid, hc, rfl⟩

theorem Owned.unsettled (hc : c ∉ s.begun.map Prod.fst) (how : Settlement) :
    (c, how) ∉ s.settled := by
  intro hmem
  have hplaces := h.places c
  rw [if_neg hc] at hplaces
  have hsettled : 0 < s.settled.countP (fun x => x.1 = c) := countP_pos_iff.2 ⟨_, hmem, by simp⟩
  have hhold := holding_nonneg s.table c
  unfold State.places at hplaces
  omega

/-- A claim is handed over: it is settled at once, or the call goes on to write it. -/
theorem Owned.begin (hc : c ∉ s.begun.map Prod.fst)
    (hid : id ∉ s.begun.map Prod.snd) (hs : List Holder) (ss : List (Claim × Settlement))
    (hplaces : ∀ c', State.places { s with holders := hs, settled := ss } c' =
      s.places c' + if c = c' then 1 else 0)
    (hholders : ∀ w ∈ hs, w ∈ s.holders ∨ w.claim = c ∧ w.id = id ∧ w.phase = .writing ∧
      s.taking.seq? ≠ some w.seq ∧
      ∃ f, faceAt s.table w.seq = some f ∧ f.id = id ∧ f.carried = true ∧ f.stuck = false)
    (hsettled : ∀ c', (c', .promoted) ∈ ss → (c', .promoted) ∈ s.settled ∨
      c' = c ∧ id ∈ s.stored ∧ id ∈ s.logged) :
    Owned { s with
      halved := s.halved.filter (· ≠ id), begun := (c, id) :: s.begun,
      holders := hs, settled := ss } := by
  have hmore : ∀ {x}, x ∈ s.begun → x ∈ (c, id) :: s.begun := mem_cons_of_mem _
  refine ⟨h.described, fun c' => ?_, ?_, fun q f c' hf hc' => ?_, h.flags, fun x hx => ?_,
    fun id' hid' => ?_, fun w hw => ?_, fun w hw hphase => ?_, fun q hq => ?_, h.read,
    fun c' id' hc' hid' => ?_⟩
  · refine (hplaces c').trans ?_
    rw [h.places]
    have hiff : c' ∈ ((c, id) :: s.begun).map Prod.fst ↔ c' = c ∨ c' ∈ s.begun.map Prod.fst := by
      simp
    by_cases hcc : c = c'
    · subst hcc
      rw [if_neg hc, if_pos rfl, if_pos (hiff.2 (.inl rfl))]
      rfl
    · simp only [hiff, hcc, Ne.symm hcc, false_or, if_false, add_zero]
  · exact ⟨nodup_cons.2 ⟨hc, h.nodup.1⟩, nodup_cons.2 ⟨hid, h.nodup.2⟩⟩
  · obtain ⟨hbegun, hcar⟩ := h.claims q f c' hf hc'
    exact ⟨hmore hbegun, hcar⟩
  · obtain ⟨hboth, hbegun⟩ := h.handed x hx
    exact ⟨hboth, fun c' hc' => hmore (hbegun c' hc')⟩
  · exact h.halved id' (mem_of_mem_filter hid')
  · rcases hholders w hw with hmem | ⟨rfl, rfl, _, _, hf⟩
    · exact ⟨hmore (h.holder w hmem).1, (h.holder w hmem).2⟩
    · exact ⟨mem_cons_self, .inl hf⟩
  · rcases hholders w hw with hmem | ⟨_, _, hwriting, _⟩
    · exact h.checking w hmem hphase
    · rw [hwriting] at hphase
      cases hphase
  · obtain ⟨hstuck, hfar⟩ := h.taking q hq
    refine ⟨hstuck, fun w hw => ?_⟩
    rcases hholders w hw with hmem | ⟨_, _, _, hne, _⟩
    · exact hfar w hmem
    · rintro rfl
      exact hne hq
  · rcases mem_cons.1 hid' with heq | hold
    · obtain ⟨rfl, rfl⟩ := Prod.ext_iff.1 heq
      rcases hsettled c' hc' with hin | ⟨_, hboth⟩
      · exact absurd hin (h.unsettled hc _)
      · exact hboth
    · rcases hsettled c' hc' with hin | ⟨rfl, _⟩
      · exact h.promoted c' id' hin hold
      · exact absurd (mem_map_of_mem hold) hc

end

variable {s' : State}

section

variable (h : Owned s)
include h

/-- `hold/3` looks the hook up. -/
theorem Owned.holdRead (hstep : step s (.holdRead c id) = some s') : Owned s' := by
  simp only [step] at hstep
  split at hstep
  case isFalse => cases hstep
  case isTrue hok =>
    obtain ⟨hhalved, hc, hid⟩ := hok
    split at hstep
    · -- The entry is gone: it was completed while the caller waited.
      next hnone =>
        cases hstep
        refine h.begin hc hid s.holders ((c, .promoted) :: s.settled) (places_settle s c .promoted)
          (fun w hw => .inl hw) fun c' hc' => ?_
        rcases mem_cons.1 hc' with heq | hin
        · refine .inr ⟨(Prod.ext_iff.1 heq).1, ?_⟩
          rcases h.halved id hhalved with ⟨q, f, hf, rfl, hcar⟩ | hboth
          · have hfound := h.holdFind_eq hf hcar
            rw [show s.table.holdFind f.id = none from hnone] at hfound
            cases hfound
          · exact hboth
        · exact .inl hin
    · cases hstep
      refine h.begin hc hid s.holders ((c, .released) :: s.settled) (places_settle s c .released)
        (fun w hw => .inl hw) fun c' hc' => ?_
      rcases mem_cons.1 hc' with heq | hin
      · cases heq
      · exact .inl hin
    · -- The entry waits, and its claim is not being taken: that one is marked.
      next q hfind =>
        cases hstep
        obtain ⟨f, hf, hfid, hcar, hstuck⟩ := h.of_holdFind hfind
        refine h.begin hc hid (⟨c, id, q, .writing⟩ :: s.holders) s.settled (fun c' => ?_)
          (fun w hw => ?_) fun c' hc' => .inl hc'
        · unfold State.places
          by_cases hcc : c = c' <;> simp [State.table, hcc]
          omega
        rcases mem_cons.1 hw with rfl | hw
        · refine .inr ⟨rfl, rfl, rfl, fun hq => ?_, f, hf, hfid, hcar, hstuck⟩
          have hmarked := (h.taking q hq).1 f hf
          rw [hstuck] at hmarked
          cases hmarked
        · exact .inl hw

/-- A call about to write its claim to an entry is the only call on it, and no claim is there. -/
theorem Owned.alone (hi : s.holders[i]? = some ⟨c, id, q, .writing⟩)
    (hf : faceAt s.table q = some f) : f.claim = none ∧ ∀ w ∈ s.holders.eraseIdx i, w.seq ≠ q := by
  have hmem := mem_of_getElem? hi
  obtain ⟨hbegun, hwhere⟩ := h.holder _ hmem
  have hfid : f.id = id := by
    rcases hwhere with ⟨g, hg, hgid, _⟩ | ⟨hnone, _⟩
    · rw [some.inj (hf.symm.trans hg)]
      exact hgid
    · rw [hf] at hnone
      cases hnone
  have hplaces := places_holders hi c
  rw [h.places c, if_pos (mem_map_of_mem hbegun)] at hplaces
  have hzero : State.places { s with holders := s.holders.eraseIdx i } c = 0 := by
    simpa using hplaces
  have hhold := holding_nonneg s.table c
  have hzero : s.settled.countP (fun x => x.1 = c) +
      (s.holders.eraseIdx i).countP (fun h => h.phase = .writing ∧ h.claim = c) +
      holding s.table c + s.handed.countP (bears c) = 0 := hzero
  have hfree : f.claim = none := by
    cases hclaim : f.claim with
    | none => rfl
    | some c' =>
      obtain rfl := h.claim_eq (hfid ▸ (h.claims q f c' hf hclaim).1) hbegun
      have hpos := holding_pos hf hclaim
      omega
  refine ⟨hfree, fun w hw hq => ?_⟩
  have hw' := mem_of_mem_eraseIdx hw
  obtain ⟨hwbegun, hwhere⟩ := h.holder w hw'
  have hwid : w.id = id := by
    rcases hwhere with ⟨g, hg, hgid, _⟩ | ⟨hgone, _⟩
    · rw [hq] at hg
      rw [← hgid, ← some.inj (hf.symm.trans hg), hfid]
    · rw [hq, hf] at hgone
      cases hgone
  have hwc : w.claim = c := h.claim_eq hwbegun (hwid ▸ hbegun)
  cases hphase : w.phase with
  | writing =>
    have hpos : 0 < (s.holders.eraseIdx i).countP (fun h => h.phase = .writing ∧ h.claim = c) :=
      countP_pos_iff.2 ⟨w, hw, by simp [hphase, hwc]⟩
    omega
  | checking =>
    obtain ⟨g, hg, hclaim⟩ := h.checking w hw' hphase
    rw [hq] at hg
    rw [← some.inj (hf.symm.trans hg), hfree] at hclaim
    cases hclaim

/-- A call goes away; what it was about to write is settled. -/
theorem Owned.leave (hi : s.holders[i]? = some w) (ss : List (Claim × Settlement))
    (hplaces : ∀ c, State.places { s with holders := s.holders.eraseIdx i, settled := ss } c =
      s.places c)
    (hsettled : ∀ c, (c, .promoted) ∈ ss →
      (c, .promoted) ∈ s.settled ∨ c = w.claim ∧ w.id ∈ s.stored ∧ w.id ∈ s.logged) :
    Owned { s with holders := s.holders.eraseIdx i, settled := ss } := by
  have hsub : ∀ w' ∈ s.holders.eraseIdx i, w' ∈ s.holders := fun _ hw => mem_of_mem_eraseIdx hw
  refine { h with
    places := fun c => (hplaces c).trans (h.places c)
    holder := fun w' hw' => h.holder w' (hsub w' hw')
    checking := fun w' hw' => h.checking w' (hsub w' hw')
    taking := fun q hq => ⟨(h.taking q hq).1, fun w' hw' => (h.taking q hq).2 w' (hsub w' hw')⟩
    promoted := fun c id hc hid => ?_ }
  rcases hsettled c hc with hin | ⟨rfl, hboth⟩
  · exact h.promoted c id hin hid
  · rw [h.hook_eq hid (h.holder w (mem_of_getElem? hi)).1]
    exact hboth

/-- The entry is still there: the claim is in it now. -/
theorem Owned.wrote (hi : s.holders[i]? = some ⟨c, id, q, .writing⟩)
    (hf : faceAt s.table q = some f) :
    Owned { s.setTable (s.table.update q fun e => { e with claim := some c }) with
      holders := ⟨c, id, q, .checking⟩ :: s.holders.eraseIdx i } := by
  have hmem := mem_of_getElem? hi
  obtain ⟨hfree, hfar⟩ := h.alone hi hf
  obtain ⟨hbegun, ⟨g, hg, hid, hcar, hstuck⟩ | ⟨hnone, -⟩⟩ := h.holder _ hmem
  case inr => rw [hf] at hnone; cases hnone
  obtain rfl := some.inj (hf.symm.trans hg)
  have hface := faceAt_setClaim (t := s.table) q (some c)
  have hnew : faceAt (s.table.update q fun e => { e with claim := some c }) q =
      some { f with claim := some c } := by
    rw [hface, if_pos rfl, hf]
    rfl
  have hidle : s.taking.seq? ≠ some q := fun hq => (h.taking q hq).2 _ hmem rfl
  refine h.revise (q := q) (⟨c, id, q, .checking⟩ :: s.holders.eraseIdx i) s.taking s.settled
    (h.described.setClaim q (some c)) (fun q' hq' => ?_) ?_ (fun c' => ?_)
    (fun f' c' hf' hc' => ?_) (fun w hw => ?_)
    (fun q' hq' => .inl ⟨fun hqq => hidle (hqq ▸ hq'), rfl⟩) fun _ hin => hin
  · rw [hface, if_neg hq']
  · rw [hnew, hf]
    rfl
  · -- The claim moves from the call into the entry.
    have herase := places_holders hi c'
    have hhold := holding_setClaim hf (some c) c'
    unfold State.places at herase ⊢
    by_cases hcc : c = c' <;> simp [State.setTable, State.table, hcc, hfree] at herase hhold ⊢ <;>
      omega
  · rw [hnew] at hf'
    cases hf'
    cases hc'
    exact ⟨hid ▸ hbegun, hcar⟩
  · rcases mem_cons.1 hw with rfl | hw
    · exact .inr ⟨rfl, hbegun, _, hnew, hid, hcar, hstuck, rfl⟩
    · exact .inl ⟨mem_of_mem_eraseIdx hw, hfar w hw⟩

/-- `hold/3` writes the claim to the entry it found. -/
theorem Owned.holdWrite (hstep : step s (.holdWrite i) = some s') : Owned s' := by
  simp only [step] at hstep
  split at hstep
  case h_2 => cases hstep
  case h_1 c id q hi =>
    split at hstep
    · -- The entry was completed in between.
      next hnone =>
        have hnone : faceAt s.table q = none := congrArg (Option.map face) hnone
        cases hstep
        refine h.leave hi ((c, .promoted) :: s.settled) (fun c' => ?_) fun c' hc' => ?_
        · refine (places_settle { s with holders := s.holders.eraseIdx i } c .promoted c').trans ?_
          rw [places_holders hi]
          simp
        rcases mem_cons.1 hc' with heq | hin
        · refine .inr ⟨(Prod.ext_iff.1 heq).1, ?_⟩
          obtain ⟨-, ⟨f, hf, -⟩ | ⟨-, hboth⟩⟩ := h.holder _ (mem_of_getElem? hi)
          · rw [hnone] at hf
            cases hf
          · exact hboth
        · exact .inl hin
    next he =>
      cases hstep
      exact h.wrote hi (congrArg (Option.map face) he)

/-- `hold/3` reads the entry back: it is there, and not marked. -/
theorem Owned.holdCheck (hstep : step s (.holdCheck i) = some s') : Owned s' := by
  simp only [step] at hstep
  split at hstep
  case h_2 => cases hstep
  case h_1 c id q hi =>
    have hmem := mem_of_getElem? hi
    obtain ⟨f, hf, -⟩ := h.checking _ hmem rfl
    obtain ⟨-, ⟨g, hg, -, -, hstuck⟩ | ⟨hnone, -⟩⟩ := h.holder _ hmem
    case inr => rw [hf] at hnone; cases hnone
    obtain ⟨e, he, rfl⟩ := map_eq_some_iff.1 hg
    have hheld : s.table.holdCheck q = .held := by
      have hstuck : e.stuck = false := hstuck
      simp [Table.holdCheck, he, hstuck]
    simp only [State.table] at hheld hstep
    rw [hheld] at hstep
    cases hstep
    refine h.leave hi s.settled (fun c' => ?_) fun c' hc' => .inl hc'
    refine (places_holders hi c').trans ?_
    simp

/-- What one step keeps, when no call on an entry is interrupted. -/
theorem Owned.step (ev : Event) (hex : Exclusive s ev) (hstep : Claims.step s ev = some s') :
    Owned s' := by
  cases ev with
  | table =>
    obtain ⟨hplain, hstep⟩ := passed hstep
    obtain ⟨sh, hsh, rfl⟩ := map_eq_some_iff.1 hstep
    exact h.table hex hplain hsh
  | localDone =>
    cases hstep
    exact h.localDone hex
  | logDone =>
    obtain ⟨hok, rfl⟩ := guarded hstep
    exact h.logDone hok.1 hex
  | promote =>
    obtain ⟨x, hi, rfl⟩ := map_eq_some_iff.1 hstep
    exact h.promote hi
  | lose => exact hex.elim
  | mark =>
    obtain ⟨-, rfl⟩ := guarded hstep
    exact h.mark hex
  | takeRead =>
    simp only [Claims.step] at hstep
    split at hstep
    next hq =>
      cases hstep
      exact h.takeRead hq
    · cases hstep
  | takeClear =>
    simp only [Claims.step] at hstep
    split at hstep
    · cases hstep
      exact { h with
        taking := fun _ hq => by cases hq
        read := fun _ _ hq => by cases hq }
    next hq =>
      cases hstep
      exact h.takeClear hq
    · cases hstep
  | holdRead => exact h.holdRead hstep
  | holdWrite => exact h.holdWrite hstep
  | holdCheck => exact h.holdCheck hstep

/-- The hook's entry is gone and nobody is about to settle the claim: it was settled. -/
theorem Owned.settled_of_gone (hbegun : (c, id) ∈ s.begun)
    (hgone : ∀ q e, s.table.entries.get q = some e → e.id ≠ id)
    (hcalls : ∀ w ∈ s.holders, w.claim ≠ c)
    (hhanded : ∀ x ∈ s.handed, x.2.claim ≠ some c) : s.settled.countP (fun x => x.1 = c) = 1 := by
  have hplaces := h.places c
  rw [if_pos (mem_map_of_mem hbegun)] at hplaces
  have hhold : holding s.table c = 0 := Map.total_eq_zero fun q e he => if_neg fun hc =>
    hgone q e he (h.hook_eq (h.claims q (face e) c (congrArg (Option.map face) he) hc).1 hbegun)
  have hwriting : s.holders.countP (fun w => w.phase = .writing ∧ w.claim = c) = 0 :=
    countP_eq_zero.2 fun w hw => by simp [hcalls w hw]
  have hready : s.handed.countP (bears c) = 0 := countP_eq_zero.2 fun x hx => by
    simp [bears, hhanded x hx]
  unfold State.places at hplaces
  omega

end

/-- In every run in which no `hold/3` call on an entry is interrupted by its completion or by its
    mark, a claim is settled at most once, and once its hook's entry is gone and nobody is about to
    settle it, exactly once; it is promoted only for a hook that is in the store and in the log; and
    an entry that holds it is its hook's and the claim is not settled. -/
theorem settled_once_of_exclusive {es : List Event} (hrun : Run.exec step .start es = some s)
    (hex : Run.Along step Exclusive .start es) {id : String} (hbegun : (c, id) ∈ s.begun) :
    s.settled.countP (fun x => x.1 = c) ≤ 1 ∧
    ((∀ q e, s.table.entries.get q = some e → e.id ≠ id) → (∀ w ∈ s.holders, w.claim ≠ c) →
      (∀ x ∈ s.handed, x.2.claim ≠ some c) → s.settled.countP (fun x => x.1 = c) = 1) ∧
    ((c, .promoted) ∈ s.settled → id ∈ s.stored ∧ id ∈ s.logged) ∧
    ∀ q e, s.table.entries.get q = some e → e.claim = some c →
      e.id = id ∧ s.settled.countP (fun x => x.1 = c) = 0 := by
  have h := invariant_along (fun _ ev _ h hP hs => h.step ev hP hs) Owned.start hex hrun
  have hplaces := h.places c
  rw [if_pos (mem_map_of_mem hbegun)] at hplaces
  have hhold := holding_nonneg s.table c
  unfold State.places at hplaces
  refine ⟨by omega, h.settled_of_gone hbegun, fun hc => h.promoted c id hc hbegun,
    fun q e he hc => ?_⟩
  have hf : faceAt s.table q = some (face e) := congrArg (Option.map face) he
  have hpos := holding_pos hf hc
  exact ⟨h.hook_eq (h.claims q (face e) c hf hc).1 hbegun, by omega⟩

/-- Two hooks wait for the log. The first is published and its claim promoted; the second is past
    the deadline, so its claim is released. -/
def heldThrough : List Event :=
  [.table (.enter [⟨1, "a", [1], none⟩, ⟨2, "b", [2], none⟩] 1 0),
   .table (.carry 0 ⟨.ok, .missing, none⟩ [] 0 5), .holdRead 7 "a", .holdWrite 0, .holdRead 8 "b",
   .holdCheck 1, .holdWrite 0, .holdCheck 0, .logDone 1 0, .promote 0, .mark 2, .takeRead,
   .takeClear]

theorem heldThrough_settled_once : ∃ s, Run.exec step .start heldThrough = some s ∧
    s.settled = [(8, .released), (7, .promoted)] ∧ s.settled.countP (fun x => x.1 = 7) ≤ 1 ∧
    "a" ∈ s.stored ∧ "a" ∈ s.logged := by
  obtain ⟨s, hs, hsettled, hbegun⟩ := of_exec (f := step) (s := .start) (l := heldThrough)
    (P := fun s => s.settled = [(8, .released), (7, .promoted)] ∧ (7, "a") ∈ s.begun) (by decide)
  obtain ⟨honce, _, hpromoted, _⟩ := settled_once_of_exclusive hs (by decide) hbegun
  exact ⟨s, hs, hsettled, honce, hpromoted (by simp [hsettled])⟩

/-- The mark falls between the two reads of `hold/3`: the reconciler finds no claim to take, the
    call answers that the hook is stuck, and the claim it wrote stays with the entry. -/
def markedMeanwhile : List Event :=
  [.table (.enter [⟨1, "a", [1], none⟩] 1 0), .table (.carry 0 ⟨.ok, .missing, none⟩ [] 0 5),
   .holdRead 7 "a", .mark 1, .takeRead, .takeClear, .holdWrite 0, .holdCheck 0, .logDone 1 0,
   .promote 0]

/-- The claim is released and, when the hook is published, promoted as well. -/
theorem markedMeanwhile_settled_twice : ∃ s, Run.exec step .start markedMeanwhile = some s ∧
    s.settled = [(7, .promoted), (7, .released)] :=
  of_exec (by decide)

end Ankusa.Pending.Claims
