import Ankusa.Queue.Batches
import Ankusa.Lib.Cells

set_option autoImplicit false

/-! # What a batch adds to the counters

A batch carries its counter changes as merges: `Counters.ops` folds a transition's deltas into one
merge for each counter of the tenant and one for the node's aggregate (ordinal 0), and `coalesce`
folds the merges of a whole batch again. Neither changes what a counter is added
(`delta_counterOps`, `delta_coalesce`) nor what is left under any other key
(`get_write_coalesce`). -/

namespace Ankusa

open List

instance : KV.LawfulNum Val := ⟨fun _ => rfl⟩

namespace Counters

/-- What a delta adds to a counter; ordinal 0 counts every tenant. -/
def hit (o : Nat) (f : Field) (n : Int) (x : Nat × Field) : Int :=
  if (x.1 = 0 ∨ o = x.1) ∧ f = x.2 then n else 0

@[simp] theorem hit_neg (o : Nat) (f : Field) (n : Int) (x : Nat × Field) :
    hit o f (-n) x = -hit o f n x := by
  unfold hit
  split <;> simp

@[simp] theorem hit_zero (o : Nat) (f : Field) (x : Nat × Field) : hit o f 0 x = 0 := by
  simp [hit]

/-- What the deltas add to the counter `x`. -/
def gain (ds : List Delta) (x : Nat × Field) : Int := (ds.map fun d => hit d.1 d.2.1 d.2.2 x).sum

@[simp] theorem gain_nil (x : Nat × Field) : gain [] x = 0 := rfl

@[simp] theorem gain_cons (d : Delta) (ds : List Delta) (x : Nat × Field) :
    gain (d :: ds) x = hit d.1 d.2.1 d.2.2 x + gain ds x := by
  simp [gain]

@[simp] theorem gain_append (ds ds' : List Delta) (x : Nat × Field) :
    gain (ds ++ ds') x = gain ds x + gain ds' x := by
  simp [gain]

variable {κ : Type}

/-- The sum over the distinct keys of the sums under each key is the sum over all. -/
theorem sum_fibers {α : Type} [DecidableEq κ] (key : α → κ) (g : α → Int) (ks : List κ)
    (hks : ks.Nodup) (ds : List α) (h : ∀ d ∈ ds, key d ∈ ks) :
    (ks.map fun k => ((ds.filter fun d => key d = k).map g).sum).sum = (ds.map g).sum := by
  induction ds with
  | nil => simp
  | cons d ds ih =>
    obtain ⟨hd, hds⟩ := forall_mem_cons.1 h
    have hone : ∀ l : List κ, l.Nodup → key d ∈ l →
        (l.map fun k => if key d = k then g d else 0).sum = g d := by
      intro l
      induction l with
      | nil => exact fun _ hmem => absurd hmem not_mem_nil
      | cons k l ihl =>
        intro hnodup hmem
        obtain ⟨hk, hl⟩ := nodup_cons.1 hnodup
        by_cases hdk : key d = k
        · have hzero : (l.map fun k => if key d = k then g d else 0).sum = 0 := by
            refine sum_eq_zero fun x hx => ?_
            obtain ⟨k', hk', rfl⟩ := mem_map.1 hx
            refine if_neg fun he => hk ?_
            rw [← hdk, he]
            exact hk'
          simp [hdk, hdk ▸ hzero]
        · have hmem' : key d ∈ l := (mem_cons.1 hmem).resolve_left hdk
          rw [map_cons, sum_cons, if_neg hdk, ihl hl hmem', zero_add]
    have hsplit : (fun k => (((d :: ds).filter fun d => key d = k).map g).sum) =
        fun k => (if key d = k then g d else 0) + ((ds.filter fun d => key d = k).map g).sum := by
      funext k
      by_cases hdk : key d = k
      · simp [hdk]
      · simp [hdk]
    rw [hsplit, sum_map_add, hone ks hks hd, ih hds, map_cons, sum_cons]

/-- Summing by key changes no sum over a set of keys. -/
theorem sum_sumBy [DecidableEq κ] (P : κ → Prop) [DecidablePred P] (ds : List (κ × Int)) :
    ((sumBy ds).map fun p => if P p.1 then p.2 else 0).sum =
      (ds.map fun d => if P d.1 then d.2 else 0).sum := by
  rw [← sum_fibers Prod.fst (fun d => if P d.1 then d.2 else 0) (ds.map Prod.fst).dedup
    (nodup_dedup _) ds fun d hd => mem_dedup.2 (mem_map_of_mem hd)]
  unfold sumBy
  rw [map_map]
  congr 1
  refine map_congr_left fun k _ => ?_
  show (if P k then ((ds.filter (·.1 = k)).map Prod.snd).sum else 0) = _
  by_cases hk : P k
  · rw [if_pos hk]
    congr 1
    refine map_congr_left fun d hd => ?_
    have hdk : d.1 = k := by simpa using (mem_filter.1 hd).2
    rw [if_pos (hdk ▸ hk)]
  · rw [if_neg hk]
    refine (sum_eq_zero fun x hx => ?_).symm
    obtain ⟨d, hd, rfl⟩ := mem_map.1 hx
    have hdk : d.1 = k := by simpa using (mem_filter.1 hd).2
    exact if_neg (hdk ▸ hk)

theorem delta_merges (sums : List (κ × Int)) (toKey : κ → Key) (k : Key) :
    KV.delta (merges sums toKey) k = (sums.map fun p => if toKey p.1 = k then p.2 else 0).sum := by
  induction sums with
  | nil => rfl
  | cons p sums ih =>
    unfold merges at ih ⊢
    by_cases hp : p.2 = 0
    · rw [filter_cons_of_neg (by simpa using hp), ih]
      simp [hp]
    · rw [filter_cons_of_pos (by simpa using hp), map_cons, KV.delta_cons, ih]
      rfl

/-- The merges of a transition add its deltas. -/
theorem delta_counterOps {ds : List Delta} (h : ∀ d ∈ ds, d.1 ≠ 0) (x : Nat × Field) :
    KV.delta (ops ds) (.counter x.1 x.2) = gain ds x := by
  obtain ⟨o, f⟩ := x
  have hper := sum_sumBy (fun k : Nat × Field => k = (o, f)) (ds.map fun d => ((d.1, d.2.1), d.2.2))
  have hagg := sum_sumBy (fun g : Field => g = f)
    ((sumBy (ds.map fun d => ((d.1, d.2.1), d.2.2))).map fun p => (p.1.2, p.2))
  have hall := sum_sumBy (fun k : Nat × Field => k.2 = f) (ds.map fun d => ((d.1, d.2.1), d.2.2))
  simp only [map_map, Function.comp_def] at hper hagg hall
  have htenant : ((sumBy (ds.map fun d => ((d.1, d.2.1), d.2.2))).map fun p =>
      if Key.counter p.1.1 p.1.2 = .counter o f then p.2 else 0).sum =
      (ds.map fun d => if (d.1, d.2.1) = (o, f) then d.2.2 else 0).sum := by
    rw [← hper]
    congr 1
    refine map_congr_left fun p _ => ?_
    simp [Prod.ext_iff]
  unfold ops
  rw [KV.delta_append, delta_merges, delta_merges, htenant]
  by_cases ho : o = 0
  · -- the aggregate: no tenant has ordinal 0
    subst ho
    have hnone : (ds.map fun d => if (d.1, d.2.1) = (0, f) then d.2.2 else 0).sum = 0 := by
      exact sum_eq_zero (forall_mem_map.2 fun d hd => if_neg fun he => h d hd (Prod.ext_iff.1 he).1)
    rw [hnone, zero_add]
    simp only [Key.counter.injEq, true_and]
    rw [hagg, hall]
    simp [gain, hit]
  · have hnode : ((sumBy ((sumBy (ds.map fun d => ((d.1, d.2.1), d.2.2))).map fun p =>
        (p.1.2, p.2))).map fun p => if Key.counter 0 p.1 = .counter o f then p.2 else 0).sum =
            0 := by
      exact sum_eq_zero (forall_mem_map.2 fun _ _ => if_neg fun he =>
        ho (Key.counter.inj he).1.symm)
    rw [hnode, add_zero]
    simp [gain, hit, ho]

end Counters

namespace Deliveries

/-- Neither a counter nor an active marker: what `coalesce` leaves in place. -/
def kept : Key → Bool
  | .counter _ _ | .active _ _ => false
  | _ => true

/-- Folding a batch changes nothing under a key that is neither a counter nor an active marker. -/
theorem get_write_coalesce (s : Store) {k : Key} (hk : kept k = true) (ops : List Op) :
    (s.write (coalesce ops)).get k = (s.write ops).get k := by
  have hne : ∀ k', kept k' = false → k' ≠ k := by
    rintro k' hk' rfl
    exact absurd hk (by simp [hk'])
  rw [KV.Map.get_write_filter, filter_coalesce, ← KV.Map.get_write_filter]
  · exact fun o f _ => decide_eq_false (hne (.counter o f) rfl)
  · exact fun b o _ => decide_eq_false (hne (.active b o) rfl)

/-- What is kept in place merges no counter. -/
theorem merges_keepOnce (seen : List Key) (ops : List Op) (o : Nat) (f : Field) :
    ∀ op ∈ keepOnce seen ops, op.key = .counter o f → op.merges = false := by
  fun_induction keepOnce seen ops with
  | case1 => exact forall_mem_nil _
  | case2 seen o' f' d ops ih | case3 seen b o' v ops hs ih => exact ih
  | case4 seen b o' v ops hs ih => exact forall_mem_cons.2 ⟨fun _ => rfl, ih⟩
  | case5 seen op ops h1 h2 ih =>
    refine forall_mem_cons.2 ⟨fun hkey => ?_, ih⟩
    cases op with
    | put | delete => rfl
    | merge k d =>
      have hcounter : k = .counter o f := hkey
      exact (h1 o f d (by rw [hcounter])).elim

/-- Folding a batch changes no sum. -/
theorem delta_coalesce (ops : List Op) (o : Nat) (f : Field) :
    KV.delta (coalesce ops) (.counter o f) = KV.delta ops (.counter o f) := by
  rw [coalesce, KV.delta_append, KV.delta_eq_zero (merges_keepOnce [] ops o f), zero_add,
    Counters.delta_merges]
  simp only [id]
  rw [Counters.sum_sumBy (fun k : Key => k = .counter o f)]
  induction ops with
  | nil => rfl
  | cons op ops ih =>
    rw [KV.delta_cons, ← ih]
    cases op with
    | put | delete => simp [counterDeltas, KV.Op.adds]
    | merge k =>
      cases k with
      | counter => simp [counterDeltas, KV.Op.adds]
      | _ => simp [counterDeltas, KV.Op.adds]

/-- An active marker is only put, with one value, and a counter is put or deleted only before it is
    added to. -/
structure Foldable (ops : List Op) : Prop where
  markers : ∀ b o, ∃ v, ∀ op ∈ ops, op.key = .active b o → op = .put (.active b o) v
  counters : ∀ o f, ∃ before after, ops = before ++ after ∧
    (∀ op ∈ before, op.key = .counter o f → op.merges = false) ∧
    ∀ op ∈ after, op.key = .counter o f → op.merges = true

variable {ops : List Op}

theorem get_write_active (h : Foldable ops) (s : Store) (b : Int) (o : Nat) :
    (s.write (coalesce ops)).get (.active b o) = (s.write ops).get (.active b o) := by
  obtain ⟨v, hputs⟩ := h.markers b o
  have hfolded : ∀ op ∈ coalesce ops, op.key = .active b o → op = .put (.active b o) v :=
    within_coalesce hputs nofun
  by_cases hput : .put (.active b o) v ∈ ops
  · obtain ⟨w, hw⟩ := (mem_keepOnce_active [] hput).resolve_left not_mem_nil
    have hkept : .put (.active b o) w ∈ coalesce ops := mem_append_left _ hw
    rw [hfolded _ hkept rfl] at hkept
    rw [KV.Map.get_write_put s hkept hfolded, KV.Map.get_write_put s hput hputs]
  · have hnone : ∀ op ∈ ops, op.key ≠ .active b o := fun op hop hk => hput (hputs op hop hk ▸ hop)
    rw [KV.Map.get_untouched s hnone, KV.Map.get_untouched s (within_coalesce hnone nofun)]

/-- A folded batch leaves the same number in a counter: what sets it stays in front of what adds to
    it, and the sum is the same. -/
theorem read_write_counter (h : Foldable ops) (s : Store) (o : Nat) (f : Field) :
    KV.Num.read ((s.write (coalesce ops)).get (.counter o f)) =
      KV.Num.read ((s.write ops).get (.counter o f)) := by
  have hmerges : ∀ op ∈ Counters.merges (Counters.sumBy (counterDeltas ops)) id,
      op.key = .counter o f → op.merges = true := by
    intro op hop _
    obtain ⟨_, _, _, rfl⟩ := mem_counterMerges hop
    rfl
  have hfolded := KV.Map.read_write_split s (merges_keepOnce [] ops o f) hmerges
  rw [← coalesce] at hfolded
  obtain ⟨before, after, hsplit, hbefore, hafter⟩ := h.counters o f
  have hplain := KV.Map.read_write_split s hbefore hafter
  rw [← hsplit] at hplain
  have hsets : (coalesce ops).filter (fun op => decide (op.key = .counter o f) && !op.merges) =
      ops.filter fun op => decide (op.key = .counter o f) && !op.merges :=
    filter_coalesce (fun _ _ _ => Bool.and_false _) fun _ _ _ => rfl
  rw [hfolded, hplain, hsets, delta_coalesce]

/-- **Folding a batch.** A folded batch leaves what the batch leaves: the same value under every
    other key, and the same number in every counter, where an absent counter reads as zero. -/
theorem write_coalesce (h : Foldable ops) (s : Store) :
    (∀ k, (∀ o f, k ≠ .counter o f) → (s.write (coalesce ops)).get k = (s.write ops).get k) ∧
    ∀ o f, KV.Num.read ((s.write (coalesce ops)).get (.counter o f)) =
      KV.Num.read ((s.write ops).get (.counter o f)) := by
  refine ⟨fun k hk => ?_, read_write_counter h s⟩
  cases k with
  | counter o f => exact absurd rfl (hk o f)
  | active b o => exact get_write_active h s b o
  | _ => exact get_write_coalesce s rfl ops

/-- The rows of two retries of one second, and their counts. -/
def twoRetries : List Op := dueOps 1 5000 1 0 10 .retry ++ dueOps 1 5000 2 0 10 .retry ++
  [.merge (.counter 1 .scheduled) 1, .merge (.counter 1 .scheduled) 1]

theorem twoRetries_folded : (coalesce twoRetries).length = 4 ∧
    KV.Num.read (((∅ : Store).write (coalesce twoRetries)).get (.counter 1 .scheduled)) = 2 := by
  have h : Foldable twoRetries :=
    ⟨fun b o => ⟨.empty, by simp [twoRetries, dueOps]⟩,
      fun o f => ⟨[], twoRetries, rfl, by simp, by simp [twoRetries, dueOps, KV.Op.merges]⟩⟩
  exact ⟨by decide, ((write_coalesce h ∅).2 1 .scheduled).trans (by decide)⟩

/-- A counter that is added to and then deleted. -/
def mergedThenDeleted : List Op := [.merge (.counter 1 .pending) 1, .delete (.counter 1 .pending)]

/-- The merge is moved behind the delete. -/
theorem mergedThenDeleted_revived :
    KV.Num.read (((∅ : Store).write (coalesce mergedThenDeleted)).get (.counter 1 .pending)) = 1 ∧
    KV.Num.read (((∅ : Store).write mergedThenDeleted).get (.counter 1 .pending)) = 0 := by decide

end Deliveries

end Ankusa
