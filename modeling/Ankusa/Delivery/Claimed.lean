import Ankusa.Delivery.Sweep

set_option autoImplicit false

/-! # What becomes of claimed rows

Once a claim is written, every row of the round becomes a job or an outcome. What these rely on is
apart from what is in memory already: the rows were due, their lanes' heads name them, and the rows
that an expansion is going to create are absent, provided that no other expansion of the same hook
is waiting to create them (`Lone`). -/

namespace Ankusa.Delivery

open Deliveries KV List

/-- The hook whose imported row is expanded. -/
def Item.expanded (it : Item) : Option Nat :=
  match it.row, it.verdict with
  | .row _, .expand _ _ => some it.due.seq
  | _, _ => none

/-- The hook whose imported row is expanded. -/
def Result.expanded : Result → Option Nat
  | .expand _ seq _ _ _ _ _ _ => some seq
  | _ => none

/-- The hooks whose expansions wait to be written. -/
def State.expanding (s : State) : List Nat :=
  (s.buffer ++ s.unrecorded.flatten).filterMap Result.expanded

open Delivery.Item

/-- An imported row is expanded only while no other expansion of its hook waits to be written, and
    an eviction is written only while its rows are dead as they were when it was built. -/
def Lone (T : Nat → Bool) (s : State) (e : Event) : Prop :=
  match e, s.doing with
  | .write true, .writing _ (.claimed _ items) =>
    ((s.expanding ++ items.filterMap expanded).filter T).Nodup
  | .evicted i true, _ => ∀ rows ∈ s.evicting[i]?,
    hitsOk s.store (rows.map Prod.fst) = true ∧ sized s.store (rows.map Prod.fst) = rows
  | _, _ => True

instance (T : Nat → Bool) (s : State) (e : Event) : Decidable (Lone T s e) := by
  unfold Lone
  split <;> infer_instance

/-- What a claimed row relies on once it is resolved. -/
def Item.relies (s : Store) (now : Ms) (it : Item) : List (Cell × Obs) :=
  (it.resolve s now).elim Job.relies Result.relies

section Item

variable {st : Store} {now : Ms} {it : Item}

/-- A resolved row relies on itself in flight, on the head of its lane, or on the rows to come. -/
theorem Item.mem_relies {c : Cell × Obs} (h : c ∈ it.relies st now) :
    c = (.row it.due.seq it.due.sink, .row (.inflight it.due.ord it.due.size)) ∨
    (∃ row l key, it.row = .row row ∧ row.lane = some (l, key) ∧
      c = (.head it.due.ord l, .head it.due.seq it.due.sink)) ∨
    ∃ sourceId sinks i, it.expanded = some it.due.seq ∧ it.verdict = .expand sourceId sinks ∧
      i ∉ existingSinks st it.due.seq ∧ i < sinks.length ∧ c = (.row it.due.seq i, .none) := by
  have hlane : ∀ row, it.row = .row row →
    c ∈ laneRelies it.due.ord (some row) (it.due.seq, it.due.sink) →
      ∃ row l key, it.row = .row row ∧ row.lane = some (l, key) ∧
        c = (.head it.due.ord l, .head it.due.seq it.due.sink) := by
    intro row hrow hc
    unfold laneRelies at hc
    split at hc
    · next l key hlane => exact ⟨row, l, key, hrow, hlane, mem_singleton.1 hc⟩
    · cases hc
  unfold Item.relies resolve at h
  cases hrow : it.row with
  | gone =>
    rw [hrow] at h
    exact .inl (by simpa [Result.relies, laneRelies] using h)
  | damaged =>
    rw [hrow] at h
    cases hv : it.verdict with
    | dead error class? owner =>
      simp only [hv, Sum.elim_inr, Result.relies, Job.relies, Item.job] at h
      rcases mem_cons.1 h with h | h
      · exact .inl h
      · exact absurd h (by simp [laneRelies, rebuiltRow, newRow])
    | _ => exact .inl (by simpa [hv, Result.relies, laneRelies] using h)
  | row row =>
    rw [hrow] at h hlane
    cases hv : it.verdict with
    | expand sourceId sinks =>
      simp only [hv, Sum.elim_inr, Result.relies] at h
      rcases mem_cons.1 h with h | h
      · exact .inl h
      obtain ⟨p, hp, rfl⟩ := mem_map.1 h
      obtain ⟨hp, hnot⟩ := mem_filter.1 hp
      refine .inr (.inr ⟨sourceId, sinks, p.2, ?_, rfl, by simpa using hnot, ?_, rfl⟩)
      · simp [expanded, hrow, hv]
      · have hlt := (mem_zipIdx hp).2.1
        omega
    | _ =>
      simp only [hv, Sum.elim_inr, Sum.elim_inl, Result.relies, Job.relies, Item.job] at h
      rcases mem_cons.1 h with h | h
      · exact .inl h
      · exact .inr (.inl (hlane row rfl h))

theorem Item.resolve_inl {j : Job} (h : it.resolve st now = .inl j) :
    ∃ row, it.row = .row row ∧ j = it.job row := by
  unfold resolve at h
  cases hrow : it.row with
  | gone => simp [hrow] at h
  | damaged => cases hv : it.verdict <;> simp [hrow, hv] at h
  | row row =>
    cases hv : it.verdict with
    | run =>
      simp only [hrow, hv] at h
      exact ⟨row, rfl, (Sum.inl.inj h).symm⟩
    | _ => simp [hrow, hv] at h

theorem Item.resolve_inr {T : Nat → Bool} {r : Result} (h : it.resolve st now = .inr r)
    (hok : it.ok = true)
    (halive : T it.due.seq = true → ∀ row, it.row = .row row → row.state ≠ .dead) : r.Ok T := by
  unfold resolve at h
  cases hrow : it.row with
  | gone =>
    obtain rfl : Result.orphan _ _ _ _ none = r := by simpa [hrow] using h
    trivial
  | damaged =>
    cases hv : it.verdict with
    | dead error class? owner =>
      simp only [hrow, hv] at h
      obtain rfl := Sum.inr.inj h
      exact fun _ => by simp [Item.job, rebuiltRow, newRow]
    | _ =>
      simp only [hrow, hv] at h
      obtain rfl := Sum.inr.inj h
      trivial
  | row row =>
    cases hv : it.verdict with
    | run => simp [hrow, hv] at h
    | lost =>
      simp only [hrow, hv] at h
      obtain rfl := Sum.inr.inj h
      trivial
    | expand sourceId sinks =>
      simp only [hrow, hv] at h
      obtain rfl := Sum.inr.inj h
      have hlen : unresolved it.due.sink = true ∧ sinks.length ≤ unresolvedDead := by
        simpa [Item.ok, hrow, hv] using hok
      exact hlen.2
    | _ =>
      simp only [hrow, hv] at h
      obtain rfl := Sum.inr.inj h
      exact fun hT => halive hT row hrow

end Item

variable {q i : Nat}

theorem not_mem_existingSinks {st : Store} (h : i ∉ existingSinks st q)
    (hi : unresolved i = false) : st.get (.delivery q i) = none := by
  by_contra hne
  obtain ⟨v, hv⟩ := Option.ne_none_iff_exists'.1 hne
  refine h (mem_filterMap.2 ⟨.delivery q i, ?_, by simp [hi]⟩)
  exact AList.mem_keys.1 (AList.lookup_isSome.1 (by rw [show st.lookup _ = some v from hv]; rfl))

/-- Only an expansion relies on absent rows. -/
theorem Result.expanded_of_absent {r : Result} (h : (.row q i, .none) ∈ r.relies) :
    r.expanded = some q := by
  have hlane : ∀ o row id n, (Cell.row q i, Obs.none) ∉
      (Cell.row id.1 id.2, Obs.row (.inflight o n)) :: laneRelies o row id := by
    intro o row id n hmem
    rcases mem_cons.1 hmem with he | hmem
    · cases (Prod.ext_iff.1 he).2
    · unfold laneRelies at hmem
      split at hmem
      · cases (Prod.ext_iff.1 (mem_singleton.1 hmem)).2
      · cases hmem
  cases r with
  | expand =>
    rcases mem_cons.1 h with he | h
    · cases (Prod.ext_iff.1 he).2
    · obtain ⟨p, -, he⟩ := mem_map.1 h
      obtain ⟨rfl, -⟩ := Cell.row.inj (Prod.ext_iff.1 he).1
      rfl
  | delivered j | retry j | dead j time error class? owner =>
    exact absurd h (hlane _ _ (j.seq, j.sink) _)
  | orphan ord seq sink => exact absurd h (hlane _ _ (seq, sink) _)

theorem Job.no_absent {j : Job} : (Cell.row q i, Obs.none) ∉ j.relies := by
  intro h
  have hres : (Result.delivered j).expanded = some q := Result.expanded_of_absent h
  cases hres

section Claimed

variable {T : Nat → Bool} {s : State} {g : Ghost} {ops : List Op} {now : Ms} {items : List Item}
  (h : Inv T s g) (hdoing : s.doing = .writing ops (.claimed now items))

include h hdoing

variable {it : Item} {c' : Cell × Obs}

theorem Inv.claimed_row (hit : it ∈ items) (hT : T it.due.seq = true) :
    obs ((g.cells.moves g.plan).get (.row it.due.seq it.due.sink)) =
      .row (.inflight it.due.ord it.due.size) := by
  obtain ⟨-, -, -, hplan⟩ := h.items ops now items hdoing
  have hmem : claimMove it.due ∈ g.plan := by
    rw [hplan]
    exact mem_track.2 ⟨mem_map_of_mem hit, hT⟩
  have hget := Map.get_moves_of_mem (A := g.cells) h.plan.does.nodup hmem
  rw [show (claimMove it.due).cell = Cell.row it.due.seq it.due.sink from rfl] at hget
  rw [hget]
  rfl

theorem Inv.claimed_head {o : Nat} {l : Lane} :
    (g.cells.moves g.plan).get (.head o l) = g.cells.get (.head o l) := by
  obtain ⟨-, -, -, hplan⟩ := h.items ops now items hdoing
  refine Map.get_unmoved fun hmem => ?_
  obtain ⟨m, hm, hcell⟩ := mem_map.1 hmem
  rw [hplan] at hm
  obtain ⟨it, -, rfl⟩ := mem_map.1 (mem_track.1 hm).1
  cases hcell

variable {c : Cell × Obs}

/-- What the rows of the round rely on holds after the claim. -/
theorem Inv.claimed_holds (hit : it ∈ items) (hc : c ∈ it.relies (s.store.write ops) now)
    (hT : tracks T c.1 = true) : obs ((g.cells.moves g.plan).get c.1) = c.2 := by
  obtain ⟨-, -, hread, -⟩ := h.items ops now items hdoing
  rcases mem_relies hc with rfl | ⟨row, l, key, hrow, hlane, rfl⟩ |
    ⟨sourceId, sinks, i, hexp, hv, hnot, hlt, rfl⟩
  · exact h.claimed_row hdoing hit hT
  · show obs ((g.cells.moves g.plan).get (.head it.due.ord l)) = _
    rw [h.claimed_head hdoing, ((hread it hit).lane row l key hrow hlane).2]
    rfl
  · have hpending : s.doing.pending = ops := by
      rw [hdoing]
      rfl
    have hplan := h.plan
    rw [hpending] at hplan
    have hok := (hread it hit).ok
    have hi : unresolved i = false := by
      unfold Item.ok at hok
      rw [hv] at hok
      have hlen : unresolved it.due.sink = true ∧ sinks.length ≤ unresolvedDead := by
        cases hrow : it.row with
        | damaged => simp [hrow] at hok
        | gone | row => simpa [hrow] using hok
      exact decide_eq_false (by omega)
    rw [read_absent (h.models.write hplan.does hplan.fits) hplan.good hT
      (not_mem_existingSinks hnot hi)]
    rfl

/-- What two claimed rows rely on is apart. -/
theorem Inv.claimed_apart {it' : Item} (hit : it ∈ items) (hit' : it' ∈ items)
    (hrows : (it.due.seq, it.due.sink) ≠ (it'.due.seq, it'.due.sink))
    (hlone : ∀ q, it.expanded = some q → it'.expanded = some q → T q = false)
    (hc : c ∈ it.relies (s.store.write ops) now) (hc' : c' ∈ it'.relies (s.store.write ops) now)
    (hT : tracks T c.1 = true) : c.1 ≠ c'.1 := by
  intro hcell
  -- one cell holds one thing, so both rely on the same of it
  have hobs := h.claimed_holds hdoing hit hc hT
  rw [hcell, h.claimed_holds hdoing hit' hc' (hcell ▸ hT)] at hobs
  rcases mem_relies hc with rfl | ⟨row, l, key, -, -, rfl⟩ | ⟨src, sinks, i, hexp, -, -, -, rfl⟩
  · rcases mem_relies hc' with rfl | ⟨row', l', key', -, -, rfl⟩ |
      ⟨src', sinks', i', -, -, -, -, rfl⟩
    · exact hrows (Prod.ext (Cell.row.inj hcell).1 (Cell.row.inj hcell).2)
    · cases hobs
    · cases hobs
  · rcases mem_relies hc' with rfl | ⟨row', l', key', -, -, rfl⟩ |
      ⟨src', sinks', i', -, -, -, -, rfl⟩
    · cases hobs
    · exact hrows (Prod.ext (Obs.head.inj hobs).1.symm (Obs.head.inj hobs).2.symm)
    · cases hobs
  · rcases mem_relies hc' with rfl | ⟨row', l', key', -, -, rfl⟩ |
      ⟨src', sinks', i', hexp', -, -, -, rfl⟩
    · cases hobs
    · cases hobs
    · have hq : it.due.seq = it'.due.seq := (Cell.row.inj hcell).1
      rw [← hq] at hexp'
      have hfalse := hlone _ hexp hexp'
      rw [show tracks T (Cell.row it.due.seq i) = T it.due.seq from rfl, hfalse] at hT
      cases hT

/-- And apart from what is in memory. -/
theorem Inv.claimed_kept (hit : it ∈ items)
    (hlone : ∀ q, it.expanded = some q → q ∈ s.expanding → T q = false)
    (hc : c ∈ s.kept) (hc' : c' ∈ it.relies (s.store.write ops) now) (hT : tracks T c.1 = true) :
    c.1 ≠ c'.1 := by
  intro hcell
  obtain ⟨-, -, hread, -⟩ := h.items ops now items hdoing
  have hr := hread it hit
  rcases mem_relies hc' with rfl | ⟨row, l, key, hrow, hlane, rfl⟩ |
    ⟨src, sinks, i, hexp, -, -, -, rfl⟩
  · have hTq : T it.due.seq = true := by
      rw [hcell] at hT
      exact hT
    exact h.relied.left.not_row s.held_kept hTq (hr.claimed hTq) (by simp) c hc hcell.symm
  · obtain ⟨hTq, hhead⟩ := hr.lane row l key hrow hlane
    obtain ⟨q, i, n, hget, -, -, hobs⟩ := h.relied.left.head_inflight s.held_kept hc hcell
    rw [hhead] at hget
    obtain ⟨rfl, rfl⟩ := Slot.head.inj (Option.some.inj hget)
    rw [hr.claimed hTq] at hobs
    cases hobs
  · have hobs := h.relied_kept.holds c hc hT
    rw [hcell, h.claimed_holds hdoing hit hc' (hcell ▸ hT)] at hobs
    have hpair : c = (.row it.due.seq i, .none) := Prod.ext hcell hobs.symm
    subst hpair
    have hexpanding : it.due.seq ∈ s.expanding := by
      rcases mem_append.1 hc with hc | hc
      · obtain ⟨j, -, hj⟩ := mem_flatMap.1 hc
        exact absurd hj Job.no_absent
      · obtain ⟨r, hr, hc⟩ := mem_flatMap.1 hc
        exact mem_filterMap.2 ⟨r, hr, Result.expanded_of_absent hc⟩
    have hfalse := hlone _ hexp hexpanding
    rw [show tracks T (Cell.row it.due.seq i) = T it.due.seq from rfl, hfalse] at hT
    cases hT

theorem Inv.claimed_nodup_one (hit : it ∈ items) :
    (((it.relies (s.store.write ops) now).map Prod.fst).filter (tracks T)).Nodup := by
  have hlane : ∀ o row (id : Nat × Nat) n, (((Cell.row id.1 id.2, Obs.row (.inflight o n)) ::
      laneRelies o row id).map Prod.fst).Nodup := by
    intro o row id n
    unfold laneRelies
    split <;> simp
  unfold Item.relies resolve
  cases hrow : it.row with
  | gone => exact (hlane _ none (it.due.seq, it.due.sink) _).filter _
  | damaged =>
    cases hv : it.verdict with
    | dead error class? owner => exact (hlane _ (some _) (it.due.seq, it.due.sink) _).filter _
    | _ => exact (hlane _ none (it.due.seq, it.due.sink) _).filter _
  | row row =>
    cases hv : it.verdict with
    | expand sourceId sinks =>
      -- the imported sink is none of the new ones
      obtain ⟨-, -, hread, -⟩ := h.items ops now items hdoing
      have hok := (hread it hit).ok
      have hlen : unresolved it.due.sink = true ∧ sinks.length ≤ unresolvedDead := by
        simpa [Item.ok, hrow, hv] using hok
      have hsink : unresolvedDead ≤ it.due.sink := by simpa [unresolved] using hlen.1
      refine List.Nodup.filter _ ?_
      show ((Cell.row it.due.seq it.due.sink, _) :: ((sinks.zipIdx.filter fun p =>
        p.2 ∉ existingSinks (s.store.write ops) it.due.seq).map fun p =>
          (Cell.row it.due.seq p.2, Obs.none))).map Prod.fst |>.Nodup
      rw [map_cons, map_map, nodup_cons]
      refine ⟨fun hmem => ?_, ?_⟩
      · obtain ⟨p, hp, he⟩ := mem_map.1 hmem
        have hlt := (mem_zipIdx (mem_filter.1 hp).1).2.1
        have hsame : p.2 = it.due.sink := (Cell.row.inj he).2
        omega
      · have hidx : ((sinks.zipIdx.filter fun p =>
            p.2 ∉ existingSinks (s.store.write ops) it.due.seq).map Prod.snd).Nodup := by
          refine List.Nodup.sublist (filter_sublist.map _) ?_
          rw [zipIdx_map_snd]
          exact nodup_range'
        have hcells := hidx.map (f := Cell.row it.due.seq) fun a b hab => (Cell.row.inj hab).2
        rwa [map_map] at hcells
    | _ => exact (hlane _ (some row) (it.due.seq, it.due.sink) _).filter _

theorem Inv.claimed_relied (hlone : Lone T s (.write true)) : Relied T (g.cells.moves g.plan)
      (s.kept ++ items.flatMap (Item.relies (s.store.write ops) now)) := by
  obtain ⟨-, hnodup, hread, -⟩ := h.items ops now items hdoing
  have hlist : ((s.expanding ++ items.filterMap expanded).filter T).Nodup := by
    unfold Lone at hlone
    rw [hdoing] at hlone
    exact hlone
  rw [filter_append, nodup_append] at hlist
  have hmemory : ∀ it ∈ items, ∀ q, it.expanded = some q → q ∈ s.expanding → T q = false := by
    intro it hit q hq hmem
    by_contra hT
    have hT : T q = true := by simpa using hT
    exact hlist.2.2 q (mem_filter.2 ⟨hmem, hT⟩) q
      (mem_filter.2 ⟨mem_filterMap.2 ⟨it, hit, hq⟩, hT⟩) rfl
  have hpairs : items.Pairwise fun it it' => (it.due.seq, it.due.sink) ≠
    (it'.due.seq, it'.due.sink) ∧
      ∀ q, it.expanded = some q → it'.expanded = some q → T q = false := by
    refine (pairwise_map.1 hnodup).and ?_
    refine (pairwise_filterMap.1 (pairwise_filter.1 hlist.2.1)).imp fun hne q hq hq' => ?_
    by_contra hT
    have hT : T q = true := by simpa using hT
    exact hne q hq q hq' hT hT rfl
  refine ⟨?_, fun c hc hT => ?_, fun o l q i hc => ?_⟩
  · rw [map_append, filter_append, nodup_append]
    refine ⟨h.relied_kept.nodup, ?_, fun a ha b hb => ?_⟩
    · rw [map_flatMap, filter_flatMap, nodup_flatMap]
      refine ⟨fun it hit => h.claimed_nodup_one hdoing hit, ?_⟩
      refine hpairs.imp_of_mem fun {it it'} hit hit' hne a ha ha' => ?_
      obtain ⟨ha, hT⟩ := mem_filter.1 ha
      obtain ⟨c, hc, rfl⟩ := mem_map.1 ha
      obtain ⟨c', hc', hcell⟩ := mem_map.1 (mem_filter.1 ha').1
      exact h.claimed_apart hdoing hit hit' hne.1 hne.2 hc hc' hT hcell.symm
    · obtain ⟨ha, hT⟩ := mem_filter.1 ha
      obtain ⟨c, hc, rfl⟩ := mem_map.1 ha
      obtain ⟨c', hc', rfl⟩ := mem_map.1 (mem_filter.1 hb).1
      obtain ⟨it, hit, hc'⟩ := mem_flatMap.1 hc'
      exact h.claimed_kept hdoing hit (hmemory it hit) hc hc' hT
  · rcases mem_append.1 hc with hc | hc
    · exact h.relied_kept.holds c hc hT
    · obtain ⟨it, hit, hc⟩ := mem_flatMap.1 hc
      exact h.claimed_holds hdoing hit hc hT
  · rcases mem_append.1 hc with hc | hc
    · exact h.relied_kept.lanes o l q i hc
    obtain ⟨it, hit, hc⟩ := mem_flatMap.1 hc
    rcases mem_relies hc with he | ⟨row, l', key, hrow, hlane, he⟩ | ⟨src, sinks, j, -, -, -, -, he⟩
    · cases (Prod.ext_iff.1 he).1
    · obtain ⟨rfl, rfl⟩ := Obs.head.inj (Prod.ext_iff.1 he).2
      exact ((hread it hit).lane row l' key hrow hlane).1
    · cases (Prod.ext_iff.1 he).1

end Claimed

/-- Jobs and outcomes apart rely on what they rely on together. -/
theorem perm_resolved (ys : List (Job ⊕ Result)) :
    ((ys.filterMap Sum.getLeft?).flatMap Job.relies ++
      (ys.filterMap Sum.getRight?).flatMap Result.relies).Perm
      (ys.flatMap fun y => y.elim Job.relies Result.relies) := by
  induction ys with
  | nil => exact .refl _
  | cons y ys ih =>
    cases y with
    | inl =>
      simp only [filterMap_cons, Sum.getLeft?_inl, Sum.getRight?_inl, flatMap_cons, append_assoc,
        Sum.elim_inl]
      exact ih.append_left _
    | inr =>
      refine (perm_append_comm_assoc _ _ _).trans (ih.append_left _)

theorem kept_claimed (s : State) (st : Store) (items : List Item) (now : Ms) :
    (s.kept ++ items.flatMap (Item.relies st now)).Perm
      (State.kept { s with
        store := st
        jobs := s.jobs ++ (items.map (resolve st now)).filterMap Sum.getLeft?
        unrecorded :=
          s.unrecorded ++ [((items.map (resolve st now)).filterMap Sum.getRight?).reverse]
        doing := .idle }) := by
  have hsplit := perm_resolved (items.map (resolve st now))
  rw [flatMap_map] at hsplit
  have hreverse :=
    (reverse_perm ((items.map (resolve st now)).filterMap Sum.getRight?)).flatMap_right
    Result.relies
  unfold State.kept
  simp only [flatMap_append, flatten_append, flatten_cons, flatten_nil, append_nil, append_assoc]
  refine List.Perm.append_left _ ?_
  refine (List.Perm.append_left _ (List.Perm.append_left _ hsplit.symm)).trans ?_
  refine .trans ?_
    (List.Perm.append_left _ (List.Perm.append_left _ (List.Perm.append_left _ hreverse.symm)))
  -- what the new jobs rely on moves to the front
  refine (List.Perm.append_left _ (perm_append_comm_assoc _ _ _)).trans ?_
  exact perm_append_comm_assoc _ _ _

/-- The rows of the round become jobs and outcomes. -/
theorem Inv.claimed {T : Nat → Bool} {s : State} {g : Ghost} {ops : List Op} {now : Ms}
    {items : List Item} (h : Inv T s g) (hdoing : s.doing = .writing ops (.claimed now items))
    (hlone : Lone T s (.write true)) : Inv T (s.written ops (.claimed now items))
    ⟨g.cells.moves g.plan, []⟩ := by
  obtain ⟨hrec, -, hread, -⟩ := h.items ops now items hdoing
  have hpending : s.doing.pending = ops := by
    rw [hdoing]
    rfl
  have hwritten :
    Inv T { s with store := s.store.write ops, recovered := s.recovered, doing := .idle }
      ⟨g.cells.moves g.plan, []⟩ := h.written hpending (.inl rfl) id
  refine hwritten.remember rfl rfl ?_ (fun j hj => ?_) (fun r hr => ?_) (fun hr => ?_)
    (.nil hwritten.good) (forall_mem_nil _) nofun
  · rw [State.flushing_of_rests (.inl rfl), flatMap_nil, append_nil]
    exact (h.claimed_relied hdoing hlone).perm (kept_claimed s _ items now)
  · rcases mem_append.1 hj with hj | hj
    · exact h.jobs j hj
    · obtain ⟨y, hy, hyj⟩ := mem_filterMap.1 hj
      obtain ⟨it, hit, rfl⟩ := mem_map.1 hy
      obtain ⟨row, hrow, hj⟩ := resolve_inl (Sum.getLeft?_eq_some_iff.1 hyj)
      rw [hj]
      exact fun hT => (hread it hit).alive hT row hrow
  · rw [State.flushing_of_rests (.inl rfl), append_nil] at hr
    rcases mem_append.1 hr with hr | hr
    · exact h.results r (mem_append_left _ (mem_append_left _ hr))
    have hr : r ∈ (s.unrecorded ++ [((items.map (resolve (s.store.write ops) now)).filterMap
        Sum.getRight?).reverse]).flatten := hr
    rw [flatten_append, mem_append] at hr
    rcases hr with hr | hr
    · exact h.results r (mem_append_left _ (mem_append_right _ hr))
    · rw [flatten_cons, flatten_nil, append_nil, mem_reverse] at hr
      obtain ⟨y, hy, hyr⟩ := mem_filterMap.1 hr
      obtain ⟨it, hit, rfl⟩ := mem_map.1 hy
      exact resolve_inr (Sum.getRight?_eq_some_iff.1 hyr) (hread it hit).ok (hread it hit).alive
  · exact absurd (hrec.symm.trans hr) Bool.noConfusion

end Ankusa.Delivery
