import Ankusa.Queue.Checks
import Mathlib.Data.List.TakeWhile

set_option autoImplicit false

/-! # What a batch touches

A row is kept under a key of its hook's family (`Key.family`), so what a batch can do to a hook is
decided by the families of its keys. The builders of a new hook only write keys of that hook and
shared ones (`OwnedBy`), the dedupe check only keys of the dedupe index and counters, the admission
only tenants, and the undo of a group only keys the group wrote (`undoOps_touches`). -/

namespace Ankusa

open List Deliveries Counters

/-- Every operation of the batch has `P`. -/
def Within (P : Op → Prop) (ops : List Op) : Prop := ∀ op ∈ ops, P op

namespace Within

variable {P Q : Op → Prop} {a b : List Op}

theorem nil : Within P [] := forall_mem_nil _

theorem cons {op : Op} (h : P op) (ha : Within P a) : Within P (op :: a) :=
  forall_mem_cons.2 ⟨h, ha⟩

theorem append (ha : Within P a) (hb : Within P b) : Within P (a ++ b) :=
  forall_mem_append.2 ⟨ha, hb⟩

theorem mono (h : Within P a) (hPQ : ∀ op, P op → Q op) : Within Q a :=
  fun op hop => hPQ _ (h op hop)

theorem flatMap {α : Type} {xs : List α} {f : α → List Op} (h : ∀ x ∈ xs, Within P (f x)) :
    Within P (xs.flatMap f) := forall_mem_flatMap.2 h

end Within

/-- The operation is on a shared key, or puts or deletes one of family `f`. -/
def Op.Of (f : Family) (op : Op) : Prop :=
  (op.key.family = f ∧ op.merges = false) ∨ op.key.family = .shared

/-- Every operation of the batch is on a row of hook `q` or on a shared key. -/
def OwnedBy (q : Nat) : List Op → Prop := Within (Op.Of (.hook q))

/-! ## Counters -/

namespace Counters

theorem mem_sumBy {κ : Type} [DecidableEq κ] {ds : List (κ × Int)} {p : κ × Int}
    (h : p ∈ sumBy ds) : p.1 ∈ ds.map Prod.fst := by
  simp only [sumBy, mem_map, mem_dedup] at h
  obtain ⟨k, hk, rfl⟩ := h
  exact mem_map.2 hk

theorem within {P : Op → Prop} (h : ∀ o f d, P (.merge (.counter o f) d)) (ds : List Delta) :
    Within P (ops ds) := by
  intro op hop
  obtain ⟨o, f, d, rfl⟩ := mem_ops hop
  exact h o f d

end Counters

/-! ## Rows of a new hook -/

namespace Deliveries

/-- What the operations of a new row have in common. -/
theorem within_newOps {P : Op → Prop} {ord seq sink size : Nat} {time : Ms} {row : Row}
    (lane : Option Lane) (hrow : P (.put (.delivery seq sink) (.row row)))
    (hdue : P (.put (.due ord time seq sink) (.due size .firstAttempt)))
    (hmember : ∀ lane, P (.put (.laneMember ord lane seq sink) (.size size)))
    (hmarker : ∀ lane, P (.put (.laneMarker ord lane) .empty))
    (hactive : P (.put (.active (time / 1000) ord) .empty))
    (hcounter : ∀ o f d, P (.merge (.counter o f) d)) : Within
    P (newOps ord time seq sink size row lane) := by
  cases lane with
  | none => exact .append (.append (.cons hrow .nil)
    (.cons hdue (.cons hactive .nil))) (within hcounter _)
  | some lane =>
    refine .append (.append (.cons hrow .nil) (.append ?_ (within hcounter _))) (within hcounter _)
    exact .cons (hmember lane) (.cons (hmarker lane) (.cons hactive .nil))

theorem ownedBy_newOps (ord : Nat) (time : Ms) (seq sink size : Nat) (row : Row)
    (lane : Option Lane) : OwnedBy seq (newOps ord time seq sink size row lane) :=
  within_newOps lane (.inl ⟨rfl, rfl⟩) (.inl ⟨rfl, rfl⟩) (fun _ => .inl ⟨rfl, rfl⟩)
    (fun _ => .inr rfl) (.inr rfl) fun _ _ _ => .inr rfl

theorem ownedBy_archiveOps (ord seq size : Nat) : OwnedBy seq (archiveOps ord seq size) :=
  Within.append (.cons (.inl ⟨rfl, rfl⟩) .nil) (within (fun _ _ _ => .inr rfl) _)

variable {ops : List Op} {op : Op} {seen : List Key} {k : Key} {v : Val}

/-- Coalescing keeps every operation but counter merges and repeated markers. -/
theorem mem_keepOnce (h : op ∈ keepOnce seen ops) : op ∈ ops := by
  fun_induction keepOnce seen ops with
  | case1 => exact h
  | case2 seen o f d ops ih | case3 seen b o v ops hs ih => exact mem_cons_of_mem _ (ih h)
  | case4 seen b o v ops hs ih | case5 seen op' ops h1 h2 ih =>
    rcases mem_cons.1 h with rfl | h
    · exact mem_cons_self
    · exact mem_cons_of_mem _ (ih h)

/-- A marker that is put, and dropped as a repetition, was put before. -/
theorem mem_keepOnce_active (seen : List Key) {b : Int} {o : Nat} (h : .put (.active b o) v ∈ ops) :
    .active b o ∈ seen ∨ ∃ v', .put (.active b o) v' ∈ keepOnce seen ops := by
  fun_induction keepOnce seen ops with
  | case1 => cases h
  | case2 seen o' f d ops ih => exact ih ((mem_cons.1 h).resolve_left (by simp))
  | case3 seen b' o' v' ops hseen ih =>
    rcases mem_cons.1 h with heq | h
    · obtain ⟨heq, -⟩ := KV.Op.put.inj heq
      exact .inl (heq ▸ hseen)
    · exact ih h
  | case4 seen b' o' v' ops hseen ih =>
    rcases mem_cons.1 h with heq | h
    · exact .inr ⟨v, heq ▸ mem_cons_self⟩
    · rcases ih h with hmem | ⟨w, hw⟩
      · rcases mem_cons.1 hmem with heq | hmem
        · exact .inr ⟨v', heq ▸ mem_cons_self⟩
        · exact .inl hmem
      · exact .inr ⟨w, mem_cons_of_mem _ hw⟩
  | case5 seen op ops h1 h2 ih =>
    rcases mem_cons.1 h with heq | h
    · exact .inr ⟨v, heq ▸ mem_cons_self⟩
    · rcases ih h with hmem | ⟨w, hw⟩
      · exact .inl hmem
      · exact .inr ⟨w, mem_cons_of_mem _ hw⟩

theorem mem_counterMerges (h : op ∈ Counters.merges (Counters.sumBy (counterDeltas ops)) id) :
    ∃ o f d, op = .merge (.counter o f) d := by
  obtain ⟨⟨k, d⟩, hp, rfl⟩ := mem_merges h
  have hk := mem_sumBy hp
  simp only [counterDeltas, mem_map, mem_filterMap] at hk
  obtain ⟨⟨k', d'⟩, ⟨o, -, heq⟩, rfl⟩ := hk
  split at heq
  · rw [Option.some.injEq, Prod.mk.injEq] at heq
    exact ⟨_, _, d, by rw [← heq.1]; rfl⟩
  · cases heq

theorem mem_coalesce (h : op ∈ coalesce ops) : op ∈ ops ∨ ∃ o f d, op = .merge (.counter o f) d :=
  (mem_append.1 h).imp mem_keepOnce mem_counterMerges

theorem within_coalesce {P : Op → Prop} (h : Within P ops)
    (hmerge : ∀ o f d, P (.merge (.counter o f) d)) : Within P (coalesce ops) := by
  intro op hop
  rcases mem_coalesce hop with hop | ⟨o, f, d, rfl⟩
  · exact h op hop
  · exact hmerge o f d

/-- Coalescing leaves what is neither a counter merge nor an active marker as it is. -/
theorem filter_coalesce {p : Op → Bool} (hcounter : ∀ o f d, p (.merge (.counter o f) d) = false)
    (hactive : ∀ b o v, p (.put (.active b o) v) = false) :
    (coalesce ops).filter p = ops.filter p := by
  have hkeep : (keepOnce [] ops).filter p = ops.filter p := by
    generalize [] = seen
    fun_induction keepOnce seen ops with
    | case1 => rfl
    | case2 seen o f d ops ih => simp only [filter_cons, hcounter, ih]; rfl
    | case3 seen b o v ops hs ih => simp only [filter_cons, hactive, ih]; rfl
    | case4 seen b o v ops hs ih => simp only [filter_cons, hactive, ih]
    | case5 seen op ops h1 h2 ih => rw [filter_cons, filter_cons, ih]
  have hmerges : (Counters.merges (Counters.sumBy (counterDeltas ops)) id).filter p = [] := by
    refine filter_eq_nil_iff.2 fun op hop => ?_
    obtain ⟨o, f, d, rfl⟩ := mem_counterMerges hop
    simp [hcounter]
  rw [coalesce, filter_append, hkeep, hmerges, append_nil]

theorem mem_coalesce_of (h : op ∈ ops) (hk : op.key.family ≠ .shared) : op ∈ coalesce ops := by
  have heq : (coalesce ops).filter (fun op => decide (op.key.family ≠ .shared)) = ops.filter _ :=
    filter_coalesce (fun _ _ _ => rfl) fun _ _ _ => rfl
  exact mem_of_mem_filter (heq ▸ mem_filter.2 ⟨h, by simpa using hk⟩)

theorem mem_of_mem_coalesce (h : op ∈ coalesce ops) (hk : op.key.family ≠ .shared) : op ∈ ops := by
  rcases mem_coalesce h with h | ⟨o, f, d, rfl⟩
  · exact h
  · exact absurd rfl hk

end Deliveries

namespace Lanes

variable {s : Store} {ord : Nat} {lane : Lane} {m : Nat × Nat × Nat}

theorem mem_members (h : m ∈ members s ord lane) :
    s.get (.laneMember ord lane m.1 m.2.1) = some (.size m.2.2) := by
  obtain ⟨⟨k, v⟩, he, heq⟩ := mem_filterMap.1 h
  split at heq
  next hk hv =>
    split_ifs at heq with hol
    obtain ⟨rfl, rfl⟩ := hol
    cases heq
    subst hk hv
    exact KV.Map.get_of_mem_entries he
  · cases heq

theorem mem_of_foldl {α : Type} {f : Option α → α → Option α}
    (hf : ∀ b x, f b x = some x ∨ f b x = b) {xs : List α}
    {b : Option α} {m : α} (h : xs.foldl f b = some m) : b = some m ∨ m ∈ xs := by
  induction xs generalizing b with
  | nil => exact .inl h
  | cons x xs ih =>
    rcases ih h with hb | hb
    · rcases hf b x with hx | hx
      · exact .inr (Option.some.inj (hx.symm.trans hb) ▸ mem_cons_self)
      · exact .inl (hx.symm.trans hb)
    · exact .inr (mem_cons_of_mem _ hb)

theorem firstMember_mem (h : firstMember s ord lane = some m) : m ∈ members s ord lane := by
  refine (mem_of_foldl (fun best m => ?_) h).resolve_left (by simp)
  cases best with
  | none => exact .inl rfl
  | some => exact ite_eq_or_eq ..

end Lanes

namespace Writer

theorem ownedBy_rowOps (ord : Nat) (now : Ms) (item : Item) (seq : Nat) :
    OwnedBy seq (rowOps ord now item seq) := by
  refine Within.flatMap fun r _ => ?_
  obtain ⟨r, i⟩ := r
  cases r with
  | none => exact .nil
  | some => exact ownedBy_newOps _ _ _ _ _ _ _

variable {now : Ms}

theorem within_hookOps {P : Op → Prop} {ord : Nat} {item : Item} {seq : Nat}
    (archive : Bool) (hhook : P (.put (.hook seq) (.hook item.bin)))
    (hrows : Within P (rowOps ord now item seq))
    (harchive : Within P (archiveOps ord seq item.bin.length)) :
    Within P (hookOps ord now archive item seq) := by
  have hif : Within P (if archive then archiveOps ord seq item.bin.length else []) := by
    cases archive with
    | true => exact harchive
    | false => exact .nil
  unfold hookOps
  generalize (if archive then archiveOps ord seq item.bin.length else []) = archiveOps at hif ⊢
  dsimp only
  split_ifs with hnone
  · exact .nil
  · exact Within.append (.cons hhook hrows) hif

theorem ownedBy_hookOps (ord : Nat) (now : Ms) (archive : Bool) (item : Item) (seq : Nat) :
    OwnedBy seq (hookOps ord now archive item seq) :=
  within_hookOps archive (.inl ⟨rfl, rfl⟩) (ownedBy_rowOps ord now item seq)
    (ownedBy_archiveOps _ _ _)

variable {op : Op} {α : Type} {xs : List α} {items : List Item} {first q : Nat} {archive : Bool}
  {ords : List (String × Nat)} {g : Group}

theorem mem_foldl_append {f : α → List Op} {acc : List Op}
    (h : op ∈ xs.foldl (fun ops x => f x ++ ops) acc) : (∃ x ∈ xs, op ∈ f x) ∨ op ∈ acc := by
  induction xs generalizing acc with
  | nil => exact .inr h
  | cons x xs ih =>
    rcases ih h with ⟨y, hy, hop⟩ | hop
    · exact .inl ⟨y, mem_cons_of_mem _ hy, hop⟩
    · rcases mem_append.1 hop with hop | hop
      · exact .inl ⟨x, mem_cons_self, hop⟩
      · exact .inr hop

theorem zipIdx_bounds {n : Nat} {p : α × Nat} (h : p ∈ xs.zipIdx n) :
    n ≤ p.2 ∧ p.2 < n + xs.length := by
  obtain ⟨x, i⟩ := p
  exact ⟨le_snd_of_mem_zipIdx h, by have := snd_lt_add_of_mem_zipIdx h; omega⟩

theorem mem_buildOps (h : op ∈ buildOps items first now archive ords) :
    op = .put .nextSeq (.num (first + items.length)) ∨
      ∃ q, op.Of (.hook q) ∧ first ≤ q ∧ q < first + items.length := by
  rcases mem_cons.1 h with rfl | h
  · exact .inl rfl
  · rcases mem_foldl_append h with ⟨p, hp, hop⟩ | hop
    · exact .inr ⟨p.2, ownedBy_hookOps _ _ _ _ _ op hop, zipIdx_bounds hp⟩
    · cases hop

theorem buildOps_seq (h : op ∈ buildOps items first now archive ords) (hq : op.key.seq? = some q) :
    first ≤ q ∧ q < first + items.length := by
  rw [Key.seq?_eq_some] at hq
  rcases mem_buildOps h with rfl | ⟨p, ⟨hf, -⟩ | hf, hp⟩
  · cases hq
  · rw [hf] at hq
    cases hq
    exact hp
  · rw [hf] at hq
    cases hq

/-- What the operations of a new hook stamped `now` are like: what is made due is due then, and
    nothing is claimed. -/
def NewAt (now : Ms) : Op → Prop
  | .put (.due _ time _ _) _ => time = now
  | .put (.inflight _ _ _) _ => False
  | _ => True

theorem newAt_newOps (ord : Nat) (now : Ms) (seq sink size : Nat) (row : Row) (lane : Option Lane) :
    Within (NewAt now) (Deliveries.newOps ord now seq sink size row lane) :=
  within_newOps lane trivial rfl (fun _ => trivial) (fun _ => trivial) trivial fun _ _ _ => trivial

theorem newAt_buildOps (items : List Item) (first : Nat) (now : Ms) (archive : Bool)
    (ords : List (String × Nat)) : Within (NewAt now) (buildOps items first now archive ords) := by
  refine .cons trivial fun op hop => ?_
  rcases mem_foldl_append hop with ⟨p, -, hop⟩ | hop
  · refine within_hookOps archive trivial (Within.flatMap fun r _ => ?_)
      (.cons trivial (within (fun _ _ _ => trivial) _)) op hop
    obtain ⟨r, i⟩ := r
    cases r with
    | none => exact .nil
    | some => exact newAt_newOps _ _ _ _ _ _ _
  · cases hop

/-- The operations of the dedupe check. -/
def InDedupe : List Op → Prop := Within (Op.Of .dedupe)

section

variable (stored : Key → Option Val) (usage : Nat → Int) (now : Ms) (ords : List (String × Nat))
  (enforce : Bool) (quota : Quota) (items : List Item)

/-- The dedupe check writes the dedupe index and its counters. -/
theorem inDedupe_dedupeOps :
    InDedupe (dedupeCheck stored usage now ords enforce quota items).dedupeOps := by
  intro op hop
  rcases (dedupeCheck_verdicts usage items).index op hop with
    (⟨env, key, ttl, hmem, -⟩ | ⟨time, env, key, rfl⟩) | ⟨ord, field, d, rfl⟩
  · rcases mem_pair.1 hmem with rfl | rfl <;> exact .inl ⟨rfl, rfl⟩
  · exact .inl ⟨rfl, rfl⟩
  · exact .inr rfl

/-- What the check creates in the dedupe index are pairs: a key and its place in the expiry
    order. -/
def Paired (ops : List Op) : Prop :=
  ∀ op ∈ ops, op.creates = true → op.key.family = .dedupe →
    ∃ env key ttl now, op ∈ keyPuts env key ttl now ∧ keyPuts env key ttl now ⊆ ops

theorem paired_dedupeOps :
    Paired (dedupeCheck stored usage now ords enforce quota items).dedupeOps := by
  intro op hop hc hf
  rcases (dedupeCheck_verdicts usage items).index op hop with
    (⟨env, key, ttl, hmem, hsub⟩ | ⟨time, env, key, rfl⟩) | ⟨ord, field, d, rfl⟩
  · exact ⟨env, key, ttl, now, hmem, hsub⟩
  · cases hc
  · cases hf

end

/-- Admission writes the rows of new tenants. -/
theorem within_admitOps (s : Store) (closed : List String) (cached : List (String × Nat))
    (nextOrd max : Nat) (tenants : List String) :
    Within (fun op => op.key.family = .tenant)
    (admitTenants s closed cached nextOrd max tenants).ops := by
  simp only [admitTenants, Tenants.allocate]
  split_ifs
  · exact .nil
  · refine Within.append (Within.flatMap fun p _ => ?_) (.cons rfl .nil)
    exact .cons rfl (.cons rfl .nil)

/-! ## The undo of a group -/

/-- The group wrote a row of hook `q`. -/
def Group.Touches (g : Group) (q : Nat) : Prop :=
  ∃ ops ∈ g.undo, ∃ op ∈ ops, op.key.seq? = some q

/-- The group put a row under `k`. -/
def Group.Puts (g : Group) (k : Key) : Prop := ∃ ops ∈ g.undo, ∃ v, .put k v ∈ ops

/-- Undoing an operation touches its key or nothing. -/
theorem invert_key {inv : Op} (h : inv ∈ invert op) : inv.key = op.key := by
  unfold invert at h
  split at h
  · simp at h
  · split at h
    · simp at h
    · rw [mem_singleton] at h
      subst h
      rfl
  · rw [mem_singleton] at h
    subst h
    rfl
  · simp at h

variable {gs : List Group}

theorem mem_undoOps (h : op ∈ undoOps gs) : ∃ g ∈ gs, ∃ ops ∈ g.undo, ∃ o ∈ ops, op ∈ invert o := by
  obtain ⟨g, hg, h⟩ := mem_flatMap.1 h
  obtain ⟨ops, hops, h⟩ := mem_flatMap.1 h
  exact ⟨g, hg, ops, hops, mem_flatMap.1 h⟩

theorem undoOps_touches (h : op ∈ undoOps gs) (hq : op.key.seq? = some q) :
    ∃ g ∈ gs, g.Touches q := by
  obtain ⟨g, hg, ops, hops, o, ho, h⟩ := mem_undoOps h
  rw [invert_key h] at hq
  exact ⟨g, hg, ops, hops, o, ho, hq⟩

theorem undoOps_delete {k : Key} (hg : g ∈ gs) (hk : g.Puts k)
    (hmarker : k.family ≠ .marker) (hshared : k.family ≠ .shared) : .delete k ∈ undoOps gs := by
  obtain ⟨ops, hops, v, hv⟩ := hk
  refine mem_flatMap.2 ⟨g, hg, mem_flatMap.2 ⟨ops, hops, mem_flatMap.2 ⟨_, hv, ?_⟩⟩⟩
  cases k <;>
    first | exact mem_singleton_self _ | exact absurd rfl hmarker | exact absurd rfl hshared

section

variable (h : op ∈ undoOps gs)
  (hplain : ∀ g ∈ gs, ∀ ops ∈ g.undo, ∀ op ∈ ops, op.key.family ≠ .shared → op.merges = false)
include h hplain

/-- The undo of groups whose merges are all on shared keys deletes, beside those keys, what the
    groups put. -/
theorem undoOps_deletes (hk : op.key.family ≠ .shared) :
    op.creates = false ∧ op.key.family ≠ .marker ∧ ∃ g ∈ gs, g.Puts op.key := by
  obtain ⟨g, hg, ops, hops, o, ho, h⟩ := mem_undoOps h
  rw [invert_key h] at hk ⊢
  have hmerges := hplain g hg ops hops o ho hk
  cases o with
  | put k v =>
    refine ⟨?_, ?_, g, hg, ops, hops, v, ho⟩
    · unfold invert at h
      split at h
      · cases h
      · split at h
        · cases h
        · rw [mem_singleton] at h
          subst h
          rfl
      · contradiction
      · cases h
    · cases k <;> first | exact absurd h not_mem_nil | nofun
  | delete => cases h
  | merge => cases hmerges

theorem undoOps_creates (hc : op.creates = true) : op.key.family = .shared := by
  by_contra hk
  rw [(undoOps_deletes h hplain hk).1] at hc
  cases hc

theorem undoOps_marker : op.key.family ≠ .marker := fun hk =>
  (undoOps_deletes h hplain (by rw [hk]; nofun)).2.1 hk

end

theorem unsyncedAbove_mem {unsynced : List Group} {durable : Nat}
    (h : g ∈ unsyncedAbove unsynced durable) : g ∈ unsynced ∧ durable < g.upto :=
  ⟨(takeWhile_sublist _).subset h, by simpa using mem_takeWhile_imp h⟩

end Writer

/-! ## Replies -/

/-- The seqs a reply reports as committed. -/
def Reply.seqs : Reply → List Nat
  | .ok results => results.filterMap fun
    | .committed _ seq => some seq
    | _ => none
  | _ => []

/-- The reply reports hook `q` as committed. -/
def Reply.Commits (reply : Reply) (q : Nat) : Prop := q ∈ reply.seqs

variable {results : List Result}

theorem Reply.commits_ok {q : Nat} :
    (Reply.ok results).Commits q ↔ ∃ env, .committed env q ∈ results := by
  simp only [Reply.Commits, Reply.seqs, mem_filterMap]
  constructor
  · rintro ⟨r, hr, heq⟩
    cases r with
    | committed env seq =>
      obtain rfl : seq = q := Option.some.inj heq
      exact ⟨env, hr⟩
    | duplicate | error => cases heq
  · rintro ⟨env, henv⟩
    exact ⟨_, henv, rfl⟩

theorem Reply.not_commits_error (reason : Reason) (q : Nat) : ¬ (Reply.error reason).Commits q :=
  not_mem_nil

theorem Reply.not_commits_count (n q : Nat) : ¬ (Reply.count n).Commits q := not_mem_nil

namespace Writer

variable {first q : Nat} {tagged : List (Option Reason)}

theorem reassemble_committed {marks : List Mark} {env : Env}
    (h : .committed env q ∈ reassemble marks first)
    (hdone : ∀ r, .done r ∈ marks → ∀ env q, r ≠ .committed env q) :
    first ≤ q ∧ q < first + (marks.filter fun m => m matches .fresh _).length := by
  induction marks generalizing first with
  | nil => simp [reassemble] at h
  | cons m ms ih =>
    have hms : ∀ r, .done r ∈ ms → ∀ env q, r ≠ .committed env q :=
      fun r hr => hdone r (mem_cons_of_mem _ hr)
    cases m with
    | fresh =>
      simp only [reassemble, mem_cons] at h
      rw [filter_cons_of_pos (by rfl), length_cons]
      rcases h with h | h
      · cases h
        omega
      · have := ih h hms
        omega
    | done r =>
      simp only [reassemble, mem_cons] at h
      rw [filter_cons_of_neg (by simp)]
      rcases h with h | h
      · exact absurd h.symm (hdone r mem_cons_self env q)
      · exact ih h hms

theorem mem_withRefused {r : Result}
    (h : r ∈ withRefused tagged results) : r ∈ results ∨ ∃ reason, r = .error reason := by
  fun_induction withRefused tagged results with
  | case1 => simp at h
  | case2 reason ts rs ih =>
    rcases mem_cons.1 h with rfl | h
    · exact .inr ⟨reason, rfl⟩
    · exact ih h
  | case3 ts r' rs ih =>
    rcases mem_cons.1 h with rfl | h
    · exact .inl mem_cons_self
    · exact (ih h).imp_left (mem_cons_of_mem _)
  | case4 ts ih => exact ih h

/-- A checked group commits exactly the seqs of its fresh items. -/
theorem commits_reassemble {checked : Checked} (hmarked : Marked checked.results checked.fresh)
    (h : (Reply.ok (withRefused tagged (reassemble checked.results first))).Commits q) :
    first ≤ q ∧ q < first + checked.fresh.length := by
  obtain ⟨env, henv⟩ := Reply.commits_ok.1 h
  rcases mem_withRefused henv with hr | ⟨reason, hr⟩
  · rw [← hmarked.1]
    exact reassemble_committed hr hmarked.2
  · cases hr

end Writer

end Ankusa
