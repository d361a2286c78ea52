import Ankusa.Delivery.Ledger
import Ankusa.Delivery.Placed

set_option autoImplicit false

/-! # The counters are exact

Every counter of a tenant is the number, or the byte sum, of the rows it describes, and the counters
of ordinal 0 are the sums over all tenants, in every state of a run in which every stored row
decodes and no two expansions of one hook wait to be written at the same time. -/

namespace Ankusa.Delivery

open Deliveries KV Counters List State Run Place

/-- The counters are the sums over the cells, and stay so when the batch that is built is
    written. -/
structure Counts (s : State) (g : Ghost) : Prop where
  counted : Layout.Counted counterKey weight s.store g.cells
  sized : ∀ c e, g.cells.get c = some e → e.sized c
  jobs : ∀ j ∈ s.jobs, j.sized
  results : ∀ r ∈ s.buffer ++ s.unrecorded.flatten ++ s.flushing, r.sized
  books : Books g.cells s.doing.pending g.plan
  items : ∀ ops now items, s.doing = .writing ops (.claimed now items) → ∀ it ∈ items, ∀ row,
    it.row = .row row → row.size = it.due.size

variable {A : Map Cell Slot} {ms : Moves} {plan : Moves}

theorem sized_moves {ops : List Op} (hsized : ∀ c e, A.get c = some e → e.sized c)
    (hbooks : Books A ops ms) (hnodup : (ms.map Move.cell).Nodup) :
    ∀ c e, (A.moves ms).get c = some e → e.sized c := by
  intro c e he
  by_cases hc : c ∈ ms.map Move.cell
  · obtain ⟨m, hm, rfl⟩ := mem_map.1 hc
    rw [Map.get_moves_of_mem hnodup hm] at he
    exact hbooks.sized m hm e he
  · rw [Map.get_unmoved hc] at he
    exact hsized c e he

theorem counted_write {s : Store} {ops : List Op}
    (h : Layout.Counted counterKey weight s A) (hbooks : Books A ops ms)
    (hnodup : (ms.map Move.cell).Nodup) :
    Layout.Counted counterKey weight (s.write ops) (A.moves ms) :=
  h.write (fun x op hop hkey => hbooks.merges op hop (by rw [hkey]; rfl)) hbooks.balanced hnodup

section Step

variable {s : State} {g : Ghost}

/-! ## Others' batches -/

variable {T : Nat → Bool} {m : Move Cell Slot Obs} {q i : Nat} {v : Val} {now : Ms}

theorem Inv.plan_alive (h : Inv T s g) (hm : m ∈ g.plan) {o : Nat} {t : Ms} {source : String}
    {id : Option String}
    (hdead : g.cells.get m.cell = some (.row v (.dead o t source id))) : False := by
  have hsrc : obs (g.cells.get m.cell) = m.src := h.plan.fits m hm
  have hold := h.plan.old m hm
  unfold Old at hold
  rw [hdead] at hsrc
  cases hc : m.cell with
  | row =>
    rw [hc] at hold
    exact hold.2 o t source id hsrc.symm
  | head =>
    rw [hc] at hdead
    exact (h.good.slots _ _ hdead).elim

variable {ops : List Op}

theorem Counts.outside (h : Counts s g) {next : Nat} (hbooks : Books g.cells ops ms)
    (hnodup : (ms.map Move.cell).Nodup) (hdis : ∀ m ∈ g.plan, m.cell ∉ ms.map Move.cell) :
    Counts { s with store := s.store.write ops, nextSeq := next }
    { g with cells := g.cells.moves ms } :=
  { h with
    counted := counted_write h.counted hbooks hnodup
    sized := sized_moves h.sized hbooks hnodup
    books := h.books.congr fun m hm => Map.get_unmoved (hdis m hm) }

variable {t : State}

/-- Memory changes hands, and what is built, if anything, is given up or built anew. -/
theorem Counts.remember (h : Counts s g) (hstore : t.store = s.store)
    (hjobs : ∀ j ∈ t.jobs, j.sized)
    (hresults : ∀ r ∈ t.buffer ++ t.unrecorded.flatten ++ t.flushing, r.sized)
    (hbooks : Books g.cells t.doing.pending plan)
    (hitems : ∀ ops now items, t.doing = .writing ops (.claimed now items) → ∀ it ∈ items, ∀ row,
      it.row = .row row → row.size = it.due.size) : Counts t ⟨g.cells, plan⟩ where
  counted := hstore ▸ h.counted
  sized := h.sized
  jobs := hjobs
  results := hresults
  books := hbooks
  items := hitems

theorem Counts.rowAt (h : Counts s g) {p : Place}
    (hv : g.cells.get (.row q i) = some (.row v p)) :
    ∃ row, v = .row row ∧ RowAt g.cells q i p row := by
  have hs := h.sized _ _ hv
  cases v with
  | row row => exact ⟨row, rfl, hv, hs⟩
  | _ => exact absurd hs id

variable {hits : List Hit}

section

variable (h : Counts s g) (hinv : Inv every s g)
include h hinv

theorem Counts.hit (hok : hitsOk s.store hits = true) {hit : Hit} (hhit : hit ∈ hits) :
    ∃ row, s.store.get (.delivery hit.seq hit.sink) = some (.row row) ∧
      RowAt g.cells hit.seq hit.sink (deadPlace s.store hit) row := by
  obtain ⟨v, hv⟩ := hinv.read_hit hok hhit rfl
  obtain ⟨row, rfl, hat⟩ := h.rowAt hv
  exact ⟨row, body_of_cell hinv.models hinv.good rfl hv, hat⟩

theorem Counts.hits_apart (hok : hitsOk s.store hits = true)
    (hms : ∀ m ∈ ms, ∃ hit ∈ hits, m.cell = .row hit.seq hit.sink) :
    ∀ m ∈ g.plan, m.cell ∉ ms.map Move.cell := by
  intro m hm hmem
  obtain ⟨m', hm', hcell⟩ := mem_map.1 hmem
  obtain ⟨hit, hhit, hcell'⟩ := hms m' hm'
  obtain ⟨row, -, hat, -⟩ := h.hit hinv hok hhit
  obtain ⟨source, id, hplace⟩ := deadPlace_eq s.store hit
  rw [hplace] at hat
  rw [← hcell', hcell] at hat
  exact hinv.plan_alive hm hat

theorem Counts.commit {hooks : List (List New)} (hok : hooks.all hookOk = true) : Counts { s with
        store := s.store.write (coalesce (commitOps s.nextSeq hooks))
        nextSeq := s.nextSeq + hooks.length }
      { g with cells := g.cells.moves (commitMoves s.nextSeq hooks) } := by
  refine h.outside (books_commit hok hinv.fresh).coalesce (does_commit hok).nodup fun m hm hmem =>
    ?_
  obtain ⟨m', hm', hcell⟩ := mem_map.1 hmem
  obtain ⟨q, n, hle, -, -, rfl⟩ := cell_commitMoves hm'
  have hlt := hinv.plan_fresh hm hcell.symm
  omega

theorem Counts.revive (hok : hitsOk s.store hits = true) (now : Ms) (replay : String)
    (class? : Option ErrorClass) :
    Counts { s with store := s.store.write (reviveOps s.store hits now replay class?) }
      { g with cells :=
        g.cells.moves (hits.reverse.flatMap (hitRevive s.store now replay class?)) } := by
  have hdoes := hinv.does_revive hok now replay class?
  rw [track_every] at hdoes
  refine h.outside (.flatMap fun hit hhit => ?_) hdoes.nodup (h.hits_apart hinv hok fun m hm => ?_)
  · obtain ⟨row, hrow, hat⟩ := h.hit hinv hok (mem_reverse.1 hhit)
    obtain ⟨source, id, hplace⟩ := deadPlace_eq s.store hit
    rw [hplace] at hat
    unfold reviveRow hitRevive
    rw [hrow, hplace]
    dsimp only
    by_cases hclass : class? = none ∨ row.errorClass = class?
    · rw [if_pos hclass, if_pos hclass]
      exact books_revive hat
    · rw [if_neg hclass, if_neg hclass]
      exact .nil
  · obtain ⟨hit, hhit, hm⟩ := mem_flatMap.1 hm
    exact ⟨hit, mem_reverse.1 hhit, (mem_hitRevive hm).1⟩

theorem Counts.hitsGone (hok : hitsOk s.store hits = true) {ops : Hit → List Op}
    (hbooks : ∀ hit row source id,
      RowAt g.cells hit.seq hit.sink (.dead hit.ord hit.time source id) row →
      rowSize s.store hit.seq hit.sink = row.size →
      Books g.cells (ops hit)
      [rowMove hit.seq hit.sink (some (.dead hit.ord hit.time source id)) none none]) :
    Counts { s with store := s.store.write (coalesce (hits.flatMap ops)) }
      { g with cells := g.cells.moves (hits.map (hitGone s.store)) } := by
  have hnodup : ((hits.map (hitGone s.store)).map Move.cell).Nodup := by
    have hrows : ((track every (hits.map (hitGone s.store))).map Move.cell).Nodup :=
      nodup_rows (hitsOk_spec hok).1 fun hit => rfl
    rwa [track_every] at hrows
  refine h.outside (Books.map fun hit hhit => ?_).coalesce hnodup
    (h.hits_apart hinv hok fun m hm => ?_)
  · obtain ⟨row, hrow, hat⟩ := h.hit hinv hok hhit
    obtain ⟨source, id, hplace⟩ := deadPlace_eq s.store hit
    unfold hitGone
    rw [hplace] at hat ⊢
    exact hbooks hit row source id hat (by simp [rowSize, hrow])
  · obtain ⟨hit, hhit, rfl⟩ := mem_map.1 hm
    exact ⟨hit, hhit, rfl⟩

end

/-! ## The Pipeline's batches -/

section

variable (h : Counts s g)
include h

/-- A batch is built, and nothing else changes. -/
theorem Counts.build (hrests : s.doing.rests) {doing : Doing}
    (hflushing : ∀ ops results, doing ≠ .writing ops (.flushed results))
    (hbooks : Books g.cells doing.pending plan)
    (hitems : ∀ ops now items, doing = .writing ops (.claimed now items) → ∀ it ∈ items, ∀ row,
      it.row = .row row → row.size = it.due.size) : Counts { s with doing } ⟨g.cells, plan⟩ := by
  refine h.remember rfl h.jobs (fun r hr => ?_) hbooks hitems
  have hnew : flushing { s with doing } = [] := flushing_eq_nil hflushing
  rw [hnew] at hr
  refine h.results r ?_
  rw [flushing_of_rests hrests]
  exact hr

variable (hinv : Inv every s g)
include hinv

theorem Counts.dueAt {d : Due}
    (hdue : s.store.get (.due d.ord d.time d.seq d.sink) = some (.due d.size d.kind)) :
    ∃ row, s.store.get (.delivery d.seq d.sink) = some (.row row) ∧
      RowAt g.cells d.seq d.sink (.due d.ord d.time d.size d.kind) row := by
  obtain ⟨v, hv⟩ := read_due hinv.models hinv.good rfl hdue
  obtain ⟨row, rfl, hat⟩ := h.rowAt hv
  exact ⟨row, body_of_cell hinv.models hinv.good rfl hv, hat⟩

theorem Counts.claim (hidle : s.doing = .idle) (now : Ms)
    {items : List (Due × Verdict)} (hdues : duesOk s.store (items.map Prod.fst) = true) :
    Counts { s with
        doing := .writing (claim (items.map Prod.fst))
          (.claimed now (items.map fun p => Item.mk p.1 (load s.store p.1.seq p.1.sink) p.2)) }
      ⟨g.cells, items.map fun p => claimMove p.1⟩ := by
  obtain ⟨-, hdue⟩ := duesOk_spec hdues
  refine h.build (.inl hidle) nofun ?_ fun ops now' its hdoing => ?_
  · have hbooks :
        Books g.cells (Deliveries.claim (items.map Prod.fst))
        ((items.map Prod.fst).map claimMove) := by
      refine (Books.map fun d hd => ?_).coalesce
      obtain ⟨row, -, hat⟩ := h.dueAt hinv (hdue d hd)
      exact books_claim hat
    rw [map_map] at hbooks
    exact hbooks
  · obtain ⟨-, -, rfl⟩ : _ ∧ _ ∧
        (items.map fun p => Item.mk p.1 (load s.store p.1.seq p.1.sink) p.2) = its := by
      simpa using hdoing
    refine forall_mem_map.2 fun p hp row hrow => ?_
    obtain ⟨row', hrow', hat⟩ := h.dueAt hinv (hdue p.1 (mem_map_of_mem hp))
    rw [load_row hrow] at hrow'
    obtain rfl : row = row' := by simpa using hrow'
    exact hat.2.2.symm

theorem Counts.recover (hidle : s.doing = .idle) (now : Ms) :
    Counts { s with doing := .writing (recoverInflight s.store now) .recovered }
      ⟨g.cells, recoverMoves s.store now⟩ := by
  refine h.build (.inl hidle) nofun (Books.flatMap fun e he => ?_).coalesce nofun
  obtain ⟨k, v⟩ := e
  cases k with
  | inflight =>
    cases v with
    | size =>
      obtain ⟨v, hv⟩ := read_inflight hinv.models hinv.good rfl (Map.get_of_mem_entries he)
      obtain ⟨row, -, hat⟩ := h.rowAt hv
      refine books_recover hat ?_
      unfold recoverKind
      split
      · split
        · exact .inr rfl
        · exact .inl rfl
      · exact .inl rfl
    | _ => exact .nil
  | _ => exact .nil

theorem Counts.promotable (o : Nat) (l : Lane) (durable : Nat) :
    Promotable g.cells s.store o l durable := by
  intro q i n hnext
  obtain ⟨-, v, hv⟩ := read_nextHead hinv.models hinv.good hinv.plain hnext
  obtain ⟨row, -, hat⟩ := h.rowAt hv
  exact ⟨row, hat⟩

theorem Counts.flush {rs : List Result}
    (hstore : t.store = s.store) (hjobs : t.jobs = s.jobs) (time : Ms) (durable : Nat)
    (hdoing : t.doing = .writing (buildOps s.store time durable (rs.flatMap Result.ops))
      (.flushed rs))
    (hresults : (s.buffer ++ s.unrecorded.flatten).Perm (t.buffer ++ t.unrecorded.flatten ++ rs)) :
    Counts t ⟨g.cells, rs.flatMap (Result.moves s.store time durable)⟩ := by
  have hflushing : t.flushing = rs := flushing_eq hdoing
  have hrelied := hinv.relied_flush hjobs hresults
  have hsized : ∀ r ∈ t.buffer ++ t.unrecorded.flatten ++ rs, r.sized := fun r hr =>
    h.results r (mem_append_left _ (hresults.mem_iff.2 hr))
  refine h.remember hstore (hjobs ▸ h.jobs) (by rw [hflushing]; exact hsized) ?_ ?_
  · rw [hdoing]
    refine books_flush h.sized (fun r hr c hc => ?_) (fun o l => h.promotable hinv o l durable)
      (fun r hr => hsized r (mem_append_right _ hr)) hrelied.releases_nodup
    exact hrelied.holds c (mem_append_right _ (mem_flatMap.2 ⟨r, hr, hc⟩)) (tracks_every c.1)
  · rw [hdoing]
    exact nofun

theorem Counts.sweep (ord : Nat) (lanes : List Lane) (time : Ms) (durable : Nat) :
    Books g.cells (sweepOps s.store ord lanes time durable)
    (sweepMoves s.store ord lanes time durable) := by
  refine .flatMap fun l _ => books_triage (fun r hr => ?_) ?_ (h.promotable hinv ord l durable)
  · exact h.sized _ _ (read_head_some hinv.models hinv.good hr)
  · cases hr : Lanes.head s.store ord l with
    | none => exact read_head_none hinv.models hinv.good hr
    | some => exact read_head_some hinv.models hinv.good hr

theorem Counts.deadLetter {ps : List (Pick × Option (String × Option String))}
    (hok : PicksOk s.store ps) (time : Ms) (error : String) (durable : Nat) :
    Books g.cells (buildOps s.store time durable (ps.flatMap (Pick.ops s.store time error)))
      (ps.flatMap (Pick.moves s.store time error durable)) := by
  unfold buildOps
  rw [expand_eq_flatMap _ time durable [] _ (hinv.picks_releases hok) fun _ _ => not_mem_nil,
    flatMap_assoc]
  refine (Books.flatMap fun p hp =>
    Pick.books (fun row hrow => ?_) (fun row l key hrow hlane hheads => ?_)
    fun o l => h.promotable hinv o l durable).coalesce
  · obtain ⟨v, hv⟩ := hinv.read_pick (hok.present p hp) rfl
    obtain ⟨row', rfl, hat⟩ := h.rowAt hv
    have hbody := body_of_cell hinv.models hinv.good rfl hv
    rw [load_row hrow] at hbody
    obtain rfl : row = row' := by simpa using hbody
    exact hat
  · exact (hinv.pick_head (hok.present p hp) hrow hlane hheads).2

end

variable {ord : Nat}

theorem Counts.purgeDue (h : Counts s g) (hinv : Inv every s g) {rows : List Due}
    (hdues : duesOk s.store rows = true) (hord : ∀ d ∈ rows, d.ord = ord) :
    Books g.cells (purgeDue s.store ord rows) (purgeDueMoves s.store ord rows) := by
  obtain ⟨-, hdue⟩ := duesOk_spec hdues
  refine (Books.append (books_heads (fun hne => ?_) fun r hr row l key hrow hlane => ?_)
    (.map fun d hd => ?_)).coalesce
  · obtain ⟨r, hr⟩ := exists_mem_of_ne_nil _ hne
    obtain ⟨d, hd, -⟩ := mem_map.1 hr
    have hmem := (mem_filter.1 hd).1
    obtain ⟨row, -, hat⟩ := h.dueAt hinv (hdue d hmem)
    rw [← hord d hmem]
    exact hat.2.1
  · obtain ⟨d, hd, rfl⟩ := mem_map.1 hr
    have hmem := (mem_filter.1 hd).1
    obtain ⟨row', hrow', hat⟩ := h.dueAt hinv (hdue d hmem)
    rw [hrow] at hrow'
    obtain rfl : row = row' := by simpa using hrow'
    rw [← hord d hmem]
    exact hinv.good.headed _ _ row _ l key hat.1 rfl hlane
  · obtain ⟨row, -, hat⟩ := h.dueAt hinv (hdue d hd)
    have ho : d.ord ≠ 0 := hat.2.1
    refine books_purge hat rfl ?_ fun x => ?_
    · cases hk : d.kind <;> simp [blocked, ho]
    · have hsize : d.size = row.size := hat.2.2
      simp [counts, gain_blocked, hsize]
      omega

theorem Counts.purgeInflight (h : Counts s g) (hinv : Inv every s g) {rows : List Claimed}
    (hget : ∀ c ∈ rows, s.store.get (.inflight ord c.seq c.sink) = some (.size c.size)) :
    Books g.cells (purgeInflight s.store ord rows) (purgeInflightMoves s.store ord rows) := by
  have hat : ∀ c ∈ rows, ∃ row, s.store.get (.delivery c.seq c.sink) = some (.row row) ∧
      RowAt g.cells c.seq c.sink (.inflight ord c.size) row := by
    intro c hc
    obtain ⟨v, hv⟩ := read_inflight hinv.models hinv.good rfl (hget c hc)
    obtain ⟨row, rfl, hat⟩ := h.rowAt hv
    exact ⟨row, body_of_cell hinv.models hinv.good rfl hv, hat⟩
  refine (Books.append (books_heads (fun hne => ?_) fun r hr row l key hrow hlane => ?_)
    (.map fun c hc => ?_)).coalesce
  · obtain ⟨r, hr⟩ := exists_mem_of_ne_nil _ hne
    obtain ⟨c, hc, -⟩ := mem_map.1 hr
    obtain ⟨row, -, hat⟩ := hat c hc
    exact hat.2.1
  · obtain ⟨c, hc, rfl⟩ := mem_map.1 hr
    obtain ⟨row', hrow', hat⟩ := hat c hc
    rw [hrow] at hrow'
    obtain rfl : row = row' := by simpa using hrow'
    exact hinv.good.headed _ _ row _ l key hat.1 rfl hlane
  · obtain ⟨row, -, hat⟩ := hat c hc
    have ho : ord ≠ 0 := hat.2.1
    refine books_purge hat rfl (by simpa using ho) fun x => ?_
    have hsize : c.size = row.size := hat.2.2
    simp [counts, hsize]
    omega

theorem Counts.purgeMembers (h : Counts s g) (hinv : Inv every s g) {rows : List Member}
    (hget : ∀ m ∈ rows, s.store.get (.laneMember ord m.lane m.seq m.sink) = some (.size m.size)) :
    Books g.cells (purgeMembers ord rows) (rows.map (memberPurge ord)) := by
  refine (Books.map fun m hm => ?_).coalesce
  obtain ⟨v, hv⟩ := read_member hinv.models hinv.good rfl (hget m hm)
  obtain ⟨row, -, hat⟩ := h.rowAt hv
  have ho : ord ≠ 0 := hat.2.1
  refine books_purge hat rfl (by simpa using ho) fun x => ?_
  have hsize : m.size = row.size := hat.2.2
  simp [counts, hsize]
  omega

theorem books_marks (h : ∀ op ∈ ops, Marks op) : Books A ops [] := by
  refine .none fun op hop => ?_
  obtain ⟨⟨o, l, hkey⟩, -⟩ := h op hop
  rw [hkey]
  rfl

/-! ## Writes -/

theorem Counts.written (h : Counts s g) (hinv : Inv every s g)
    (hpending : s.doing.pending = ops) (hstore : t.store = s.store.write ops)
    (hrests : t.doing.rests) (hjobs : ∀ j ∈ t.jobs, j.sized)
    (hresults : ∀ r ∈ t.buffer ++ t.unrecorded.flatten, r.sized) :
    Counts t ⟨g.cells.moves g.plan, []⟩ := by
  have hbooks := h.books
  rw [hpending] at hbooks
  have hnodup := hinv.plan.does.nodup
  obtain ⟨hnone, -, hwriting⟩ := hrests.spec
  exact {
    counted := hstore ▸ counted_write h.counted hbooks hnodup
    sized := sized_moves h.sized hbooks hnodup
    jobs := hjobs
    results := by
      rw [flushing_of_rests hrests, append_nil]
      exact hresults
    books := by
      rw [hnone]
      exact .nil
    items := fun ops' now items hd => absurd hd (hwriting ops' _) }

theorem Item.resolve_sized {st : Store} {it : Item}
    (h : ∀ row, it.row = .row row → row.size = it.due.size) :
    (it.resolve st now).elim Job.sized Result.sized := by
  unfold Item.resolve
  cases hrow : it.row with
  | gone => trivial
  | damaged =>
    cases it.verdict with
    | dead error class? owner =>
      exact (rfl : (rebuiltRow now it.due.size owner.1).size = it.due.size)
    | _ => trivial
  | row row =>
    cases it.verdict with
    | lost | expand => trivial
    | _ => exact h row hrow

theorem Counts.claimed (h : Counts s g) (hinv : Inv every s g)
    {items : List Item} (hdoing : s.doing = .writing ops (.claimed now items)) :
    Counts (s.written ops (.claimed now items)) ⟨g.cells.moves g.plan, []⟩ := by
  have hresolved : ∀ it ∈ items, (it.resolve (s.store.write ops) now).elim Job.sized Result.sized :=
    fun it hit => Item.resolve_sized (h.items ops now items hdoing it hit)
  have hpending : s.doing.pending = ops := by
    rw [hdoing]
    rfl
  refine h.written hinv hpending rfl (.inl rfl) (fun j hj => ?_) fun r hr => ?_
  · rcases mem_append.1 hj with hj | hj
    · exact h.jobs j hj
    · obtain ⟨y, hy, hyj⟩ := mem_filterMap.1 hj
      obtain ⟨it, hit, rfl⟩ := mem_map.1 hy
      have hsized := hresolved it hit
      rw [Sum.getLeft?_eq_some_iff.1 hyj] at hsized
      exact hsized
  · have hr : r ∈ s.buffer ++
      (s.unrecorded ++ [((items.map (Item.resolve (s.store.write ops) now)).filterMap
        Sum.getRight?).reverse]).flatten := hr
    rw [flatten_append, ← append_assoc, mem_append] at hr
    rcases hr with hr | hr
    · exact h.results r (mem_append_left _ hr)
    rw [flatten_cons, flatten_nil, append_nil, mem_reverse] at hr
    obtain ⟨y, hy, hyr⟩ := mem_filterMap.1 hr
    obtain ⟨it, hit, rfl⟩ := mem_map.1 hy
    have hsized := hresolved it hit
    rw [Sum.getRight?_eq_some_iff.1 hyr] at hsized
    exact hsized

variable {next : After}

/-- Markers are written: the rest of the sweep is still to come. -/
theorem Counts.settles (h : Counts s g) (hinv : Inv every s g)
    (hdoing : s.doing = .writing ops next)
    (hnext : (∃ o lanes rest, next = .settle o lanes rest) ∨ ∃ rest, next = .settled rest) :
    Counts (s.written ops next) g := by
  have hmarks := hinv.marks
  have hbooks := h.books
  have hresults := h.results
  have hflushing : s.flushing = [] := by
    rcases hnext with ⟨o, lanes, rest, rfl⟩ | ⟨rest, rfl⟩ <;> exact flushing_eq hdoing
  rw [hflushing] at hresults
  have hcounted : (∀ op ∈ ops, Marks op) →
      Layout.Counted counterKey weight (s.store.write ops) g.cells :=
    fun hops => counted_write h.counted (books_marks hops) nodup_nil
  rcases hnext with ⟨o, lanes, rest, rfl⟩ | ⟨rest, rfl⟩
  · rw [hdoing] at hmarks hbooks
    exact ⟨hcounted hmarks, h.sized, h.jobs, hresults, hbooks, nofun⟩
  · rw [hdoing] at hmarks hbooks
    exact ⟨hcounted hmarks, h.sized, h.jobs, hresults, hbooks.coalesce, nofun⟩

theorem Counts.writes (h : Counts s g) (hinv : Inv every s g)
    (hdoing : s.doing = .writing ops next) :
    Counts (s.written ops next) (g.step every s (.write true)) := by
  have hresults : ∀ r ∈ s.buffer ++ s.unrecorded.flatten, r.sized :=
    fun r hr => h.results r (mem_append_left _ hr)
  cases next with
  | settle o lanes rest =>
    rw [Ghost.step_settles hdoing rfl]
    exact h.settles hinv hdoing (.inl ⟨o, lanes, rest, rfl⟩)
  | settled rest =>
    rw [Ghost.step_settles hdoing rfl]
    exact h.settles hinv hdoing (.inr ⟨rest, rfl⟩)
  | claimed =>
    rw [(Ghost.step_writes hdoing rfl).2]
    exact h.claimed hinv hdoing
  | markers o =>
    obtain ⟨hpending, hghost⟩ := Ghost.step_writes hdoing rfl
    rw [hghost]
    exact h.written hinv hpending rfl (.inr (.inl ⟨o, rfl⟩)) h.jobs hresults
  | lettered src members =>
    obtain ⟨hpending, hghost⟩ := Ghost.step_writes hdoing rfl
    rw [hghost]
    exact h.written hinv hpending rfl (.inr (.inr ⟨src, members, rfl⟩)) h.jobs hresults
  | _ =>
    obtain ⟨hpending, hghost⟩ := Ghost.step_writes hdoing rfl
    rw [hghost]
    exact h.written hinv hpending rfl (.inl rfl) h.jobs hresults

theorem Counts.fails (h : Counts s g) (hdoing : s.doing = .writing ops next) :
    Counts (s.failed next) ⟨g.cells, []⟩ := by
  cases next with
  | flushed rs =>
    have hflushing : s.flushing = rs := flushing_eq hdoing
    have hresults := h.results
    rw [hflushing] at hresults
    refine h.remember rfl h.jobs ?_ .nil nofun
    show ∀ r ∈ s.buffer ++ (s.unrecorded ++ [rs]).flatten ++ [], r.sized
    simpa using hresults
  | _ =>
    refine h.remember rfl h.jobs (fun r hr => ?_) .nil nofun
    rw [flushing_of_rests (.inl rfl), append_nil] at hr
    exact h.results r (mem_append_left _ hr)

/-! ## Every step -/

/-- The event leaves a stored row that does not decode. -/
def Event.damages : Event → Bool
  | .damage _ _ _ => true
  | _ => false

theorem Counts.step (h : Counts s g) (hinv : Inv every s g) {e : Event} (hlone : Lone every s e)
    (hintact : e.damages = false) (hstep : step s e = some t) : Counts t (g.step every s e) := by
  cases e with
  | commit =>
    obtain ⟨hok, rfl⟩ := guarded hstep
    rw [Ghost.step, track_every]
    exact h.commit hinv hok
  | revive hits now replay class? =>
    obtain ⟨hok, rfl⟩ := guarded hstep
    rw [Ghost.step, track_every]
    exact h.revive hinv hok now replay class?
  | candidates | evict =>
    obtain ⟨-, rfl⟩ := guarded hstep
    exact { h with }
  | evicted i ok =>
    obtain ⟨rows, hi, rfl⟩ := Option.map_eq_some_iff.1 hstep
    cases ok with
    | false => exact { h with }
    | true =>
      obtain ⟨hok, hrows⟩ := hlone rows hi
      have hbooks : ∀ hit row source id,
          RowAt g.cells hit.seq hit.sink (.dead hit.ord hit.time source id) row →
          rowSize s.store hit.seq hit.sink = row.size →
          Books g.cells (evictRow (rowSize s.store hit.seq hit.sink) hit)
            [rowMove hit.seq hit.sink (some (.dead hit.ord hit.time source id)) none none] :=
        fun _ _ _ _ => books_evict
      have hgone := h.hitsGone hinv hok hbooks
      simp only [Ghost.step, hi, Option.getD_some, if_true, track_every, evictSized_of_sized hrows]
      exact { hgone with }
  | purgeDead =>
    obtain ⟨⟨-, hok⟩, rfl⟩ := guarded hstep
    rw [Ghost.step, track_every]
    exact h.hitsGone hinv hok fun _ _ _ _ => books_purgeDead
  | damage => cases hintact
  | claim now =>
    obtain ⟨⟨hidle, -, hdues, -⟩, rfl⟩ := guarded hstep
    rw [Ghost.step, track_every]
    exact h.claim hinv hidle now hdues
  | outcome j o =>
    obtain ⟨⟨hidle, hj⟩, rfl⟩ := guarded hstep
    have hflushing := flushing_of_rests (.inl hidle)
    refine h.remember rfl (fun j' hj' => h.jobs j' (mem_of_mem_erase hj')) (fun r hr => ?_) ?_ ?_
    · have hold := h.results
      rw [hflushing, append_nil] at hold
      have hr : r ∈ s.buffer ++ [j.outcome o] ++ s.unrecorded.flatten ++ s.flushing := hr
      rw [hflushing, append_nil] at hr
      simp only [mem_append, mem_singleton] at hr hold
      rcases hr with (hr | rfl) | hr
      · exact hold r (.inl hr)
      · have hsized := h.jobs j hj
        cases o <;> exact hsized
      · exact hold r (.inr hr)
    · have hbooks : Books g.cells (Doing.pending .idle) [] := .nil
      rw [← hidle] at hbooks
      exact hbooks
    · intro ops now items hd
      have hd : s.doing = .writing ops (.claimed now items) := hd
      rw [hidle] at hd
      cases hd
  | flush time durable =>
    obtain ⟨hidle, rfl⟩ := guarded hstep
    rw [Ghost.step, track_every]
    exact h.flush hinv (t := { s with
      buffer := []
      doing := .writing (buildOps s.store time durable (s.buffer.flatMap Result.ops))
        (.flushed s.buffer) }) rfl rfl time durable rfl perm_append_comm
  | again i time durable =>
    obtain ⟨hidle, hstep⟩ := passed hstep
    split at hstep
    next rs hget =>
      cases hstep
      rw [Ghost.step, track_every, hget]
      exact h.flush hinv (t := { s with
        unrecorded := s.unrecorded.eraseIdx i
        doing := .writing (buildOps s.store time durable (rs.flatMap Result.ops)) (.flushed rs) })
        rfl rfl time durable rfl (flatten_eraseIdx_perm hget _)
    · cases hstep
  | sweep ord lanes time durable =>
    obtain ⟨⟨hidle, -, -⟩, hstep⟩ := passed hstep
    have hbooks := h.sweep hinv ord lanes time durable
    rw [Ghost.step, track_every]
    split at hstep
    · cases hstep
      exact h.build (.inl hidle) (by simp) hbooks.coalesce (by simp)
    · cases hstep
      exact h.build (.inl hidle) (by simp) hbooks (by simp)
  | verify =>
    simp only [Delivery.step] at hstep
    split at hstep
    next hdoing =>
      cases hstep
      have hflushing : s.flushing = [] := flushing_eq hdoing
      have hresults := h.results
      have hbooks := h.books
      rw [hflushing] at hresults
      rw [hdoing] at hbooks
      exact h.remember rfl h.jobs hresults hbooks (by simp)
    · cases hstep
  | deadLetterSource =>
    obtain ⟨hidle, rfl⟩ := guarded hstep
    exact h.build (.inl hidle) (by simp) .nil (by simp)
  | deadLetter picks time error durable =>
    simp only [Delivery.step] at hstep
    split at hstep
    next src members hdoing =>
      obtain ⟨hok, rfl⟩ := guarded hstep
      rw [Ghost.step, track_every]
      exact h.build (.inr (.inr ⟨src, members, hdoing⟩)) (by simp)
        (h.deadLetter hinv (picksOk_spec hok) time error durable) (by simp)
    · cases hstep
  | lettered =>
    simp only [Delivery.step] at hstep
    split at hstep
    next src members hdoing =>
      cases hstep
      exact h.build (.inr (.inr ⟨src, members, hdoing⟩)) (by simp) .nil (by simp)
    · cases hstep
  | recover now =>
    obtain ⟨⟨hidle, -⟩, rfl⟩ := guarded hstep
    rw [Ghost.step, track_every]
    exact h.recover hinv hidle now
  | purgeDue =>
    obtain ⟨⟨hidle, hdues, hord⟩, rfl⟩ := guarded hstep
    rw [Ghost.step, track_every]
    refine h.build (.inl hidle) (by simp) (h.purgeDue hinv hdues fun d hd => ?_) (by simp)
    simpa using all_eq_true.1 hord d hd
  | purgeInflight =>
    obtain ⟨⟨hidle, -, hget, -⟩, rfl⟩ := guarded hstep
    rw [Ghost.step, track_every]
    refine h.build (.inl hidle) (by simp) (h.purgeInflight hinv fun c hc => ?_) (by simp)
    simpa using all_eq_true.1 hget c hc
  | purgeMembers =>
    obtain ⟨⟨hidle, -, hget⟩, rfl⟩ := guarded hstep
    rw [Ghost.step, track_every]
    refine h.build (.inl hidle) (by simp) (h.purgeMembers hinv fun m hm => ?_) (by simp)
    simpa using all_eq_true.1 hget m hm
  | purgeMarkers =>
    obtain ⟨⟨hidle, -⟩, rfl⟩ := guarded hstep
    exact h.build (.inl hidle) (by simp) .nil (by simp)
  | markers lanes =>
    simp only [Delivery.step] at hstep
    split at hstep
    next ord hdoing =>
      have hresults := h.results
      rw [flushing_of_rests (.inr (.inl ⟨ord, hdoing⟩))] at hresults
      split at hstep
      · cases hstep
        exact h.remember rfl h.jobs hresults .nil (by simp)
      · simp only [Option.ite_none_right_eq_some, Option.some.injEq] at hstep
        obtain ⟨-, rfl⟩ := hstep
        exact h.remember rfl h.jobs hresults (books_marks (marks_deleteMarkers ord lanes)) (by simp)
    · cases hstep
  | write ok =>
    simp only [Delivery.step] at hstep
    split at hstep
    next next hdoing =>
      cases hstep
      cases ok with
      | true => exact h.writes hinv hdoing
      | false =>
        have hghost : g.step every s (.write false) = ⟨g.cells, []⟩ := by
          cases next <;> simp [Ghost.step, hdoing]
        rw [hghost]
        exact h.fails hdoing
    · cases hstep
  | restart =>
    cases hstep
    exact h.remember rfl (forall_mem_nil _) (forall_mem_nil _) .nil (by simp)

end Step

/-! ## The start -/

theorem Legacy.books {r : Legacy} (ho : r.ord ≠ 0) (hget : A.get (.row r.seq r.sink) = none) :
    Books A r.ops [r.move] := by
  unfold Legacy.ops Legacy.move Legacy.place Legacy.row
  cases hdeath : r.death with
  | none =>
    refine books_new (Adds.of_append (by simp [dueOps, countsKey]) (by simpa using ho)) hget
      ⟨ho, rfl⟩ fun x => ?_
    simp [counts, waits, dueField, newRow]
  | some =>
    refine books_new (Adds.of_append (by simp [countsKey]) (by simpa using ho)) hget ho fun x => ?_
    simp [counts, newRow]

theorem Counts.boot {rows : List Legacy} {next : Nat} (hok : bootOk rows next = true) :
    Counts (boot rows next) ⟨bootCells every rows, []⟩ := by
  obtain ⟨hrows, hold⟩ := bootOk_spec hok
  have hempty : ∀ c : Cell, (∅ : Map Cell Slot).get c = none := fun _ => rfl
  have hnodup : ((rows.map Legacy.move).map Move.cell).Nodup := by
    have hcells : ((track every (rows.map Legacy.move)).map Move.cell).Nodup :=
      nodup_rows hrows fun r => rfl
    rwa [track_every] at hcells
  have hbooks : Books (∅ : Map Cell Slot) (rows.flatMap Legacy.ops) (rows.map Legacy.move) := by
    refine .map fun r hr => Legacy.books ?_ (hempty _)
    have hpos := (hold r hr).2
    omega
  unfold bootCells
  rw [track_every]
  exact {
    counted := counted_write (fun x => rfl) hbooks hnodup
    sized := sized_moves (fun c e he => by rw [hempty] at he; cases he) hbooks hnodup
    jobs := forall_mem_nil _
    results := forall_mem_nil _
    books := .nil
    items := fun _ _ _ hd => nomatch hd }

theorem Counts.run {s t : State} {g : Ghost} {es : List Event} (h : Counts s g)
    (hinv : Inv every s g)
    (hlone : Along Delivery.step (Lone every) s es) (hintact : ∀ e ∈ es, e.damages = false)
    (hrun : exec Delivery.step s es = some t) : ∃ g', Inv every t g' ∧ Counts t g' := by
  refine invariant_along (I := fun s => ∃ g, Inv every s g ∧ Counts s g)
    (fun s e t hs hP hstep => ?_) ⟨g, hinv, h⟩ (hlone.and (.of_forall hintact)) hrun
  obtain ⟨g, hg, hcounts⟩ := hs
  exact ⟨g.step every s e, hg.step hP.1 hstep, hcounts.step hg hP.1 hP.2 hstep⟩

/-! ## The counters and the rows -/

/-- What an index key, or a lane-head key, counts: its row under the counters of its place, with the
    size of its delivery row. -/
def counted (s : Store) : Key → Val → List Delta
  | .due o _ q i, .due _ kind =>
    (o, dueField kind, 1) :: (o, .bytes, (rowSize s q i : Int)) :: waits o kind
  | .inflight o q i, _ => [(o, .inflight, 1), (o, .bytes, rowSize s q i)]
  | .laneMember o _ q i, _ => [(o, .pending, 1), (o, .laneMembers, 1), (o, .bytes, rowSize s q i)]
  | .dead _ q i, .owner _ _ o =>
    [(o, .dead, 1), (o, .bytes, rowSize s q i), (o, .deadBytes, rowSize s q i)]
  | .laneHead o _, _ => [(o, .lanes, 1)]
  | _, _ => []

/-- The number, or the byte sum, of the rows that a counter of the tenant describes; of all tenants
    for ordinal 0. -/
def tally (s : Store) (ord : Nat) (field : Field) : Int :=
  (s.entries.map fun e => gain (counted s e.1 e.2) (ord, field)).sum

end Ankusa.Delivery
