import Ankusa.Queue.Reclaimed

set_option autoImplicit false

/-! # A sweep with nothing beside it

A sweep goes through the markers there were when it began. Alone, each of its reads still says what
the store holds when it writes (`Phase.Exact`), so every hook it comes to and that nobody is owed
goes, and every marker it comes to goes. What it has not come to yet is in what is left of it
(`Sweeping`). -/

namespace Ankusa.Reclaim

open KV Deliveries List Option Run State

variable {cfg : Config} {s s' : State} {st st₀ : Store} {q : Nat}

/-- The steps of one call, and of the calls its sweep makes after it. -/
def alone : Event → Bool
  | .read 0 _ | .write 0 => true
  | _ => false

/-- What the call has read is what the store holds. -/
def Phase.Exact (st : Store) (seqs : List Nat) : Phase → Prop
  | .begun => True
  | .probed rows => rows = seqs.map (hasRow st)
  | .judged owed => owed = seqs.filter fun q => hasRow st q || hasArchive st q
  | .leased owed leases => (owed = seqs.filter fun q => hasRow st q || hasArchive st q) ∧
      ∀ x ∈ leases, ∀ op ∈ x.2, watched op.key = false

/-- The markers a sweep has not come to. -/
def Call.left (c : Call) : List Pair := c.pairs ++ c.rest.flatten

/-- The markers the calls have still to look at. -/
def State.left (s : State) : List Pair := s.calls.flatMap Call.left

/-- A sweep under way, from the store `st₀`. -/
structure Sweeping (st₀ : Store) (s : State) : Prop where
  one : s.calls.length ≤ 1
  exact : ∀ c ∈ s.calls, c.phase.Exact s.store (seqsOf c.pairs)
  keys : ∀ p ∈ s.left, ∃ kind sink, p.2 = .cleared p.1 kind sink
  rows : ∀ q i, s.store.get (.delivery q i) = st₀.get (.delivery q i)
  archive : ∀ q, s.store.get (.archivePending q) = st₀.get (.archivePending q)
  marked : ∀ q kind sink, s.store.get (.cleared q kind sink) ≠ none →
    (q, .cleared q kind sink) ∈ s.left
  hooks : ∀ q, Marked st₀ q → ¬ Owed st₀ q → s.store.get (.hook q) = none ∨ ∃ k, (q, k) ∈ s.left

theorem owed_iff : (hasRow st q || hasArchive st q) = true ↔ Owed st q := by
  rw [Bool.or_eq_true, hasRow_iff, hasArchive_iff]
  rfl

theorem Phase.Exact.clear {seqs : List Nat} {owed : List Nat}
    (h : owed = seqs.filter fun q => hasRow st q || hasArchive st q) (hq : q ∈ seqs) :
    q ∉ owed ↔ ¬ Owed st q := by
  rw [h, mem_filter, owed_iff, not_and]
  exact ⟨fun hn => hn hq, fun hn _ => hn⟩

theorem Sweeping.start (hidle : s.calls = []) (hstep : step cfg s .sweep = some s') :
    Sweeping s.store s' := by
  have hflatten := flatten_chunkEvery chunk (markers s.store) []
  have hmarked : ∀ q kind sink, s.store.get (.cleared q kind sink) ≠ none →
      (q, .cleared q kind sink) ∈ markers s.store :=
        fun q kind sink hget => mem_markers.2 ⟨kind, sink, rfl, hget⟩
  -- Either way what is left is every marker.
  obtain ⟨hstore, hlen, hphase, hleft⟩ : s'.store = s.store ∧ s'.calls.length ≤ 1 ∧
      (∀ c ∈ s'.calls, c.phase = .begun) ∧ s'.left = markers s.store := by
    simp only [step] at hstep
    split at hstep
    next hnone =>
      cases hstep
      rw [hnone] at hflatten
      refine ⟨rfl, by simp [hidle], fun c hc => ?_, ?_⟩
      · rw [hidle] at hc
        cases hc
      · rw [left, hidle]
        exact hflatten
    next hchunks =>
      cases hstep
      rw [hchunks] at hflatten
      refine ⟨rfl, by simp [hidle], fun c hc => ?_, ?_⟩
      · simp only [hidle, nil_append, mem_singleton] at hc
        rw [hc]
      · simpa [left, hidle, Call.left] using hflatten
  refine
    { one := hlen
      exact := fun c hc => by rw [hphase c hc]; trivial
      keys := fun p hp => ?_
      rows := fun q i => by rw [hstore]
      archive := fun q => by rw [hstore]
      marked := fun q kind sink hget => ?_
      hooks := fun q hq _ => .inr ?_ }
  · rw [hleft] at hp
    obtain ⟨kind, sink, hk, -⟩ := mem_markers.1 hp
    exact ⟨kind, sink, hk⟩
  · rw [hstore] at hget
    rw [hleft]
    exact hmarked q kind sink hget
  · obtain ⟨kind, sink, hget⟩ := hq
    exact ⟨_, hleft ▸ hmarked q kind sink hget⟩

theorem Sweeping.read (h : Sweeping st₀ s) {now : Ms} (hstep : step cfg s (.read 0 now) = some s') :
    Sweeping st₀ s' := by
  obtain ⟨c, hi, hstep⟩ := bind_eq_some_iff.1 hstep
  obtain ⟨c', hread, rfl⟩ := map_eq_some_iff.1 hstep
  obtain ⟨rest, hcalls⟩ : ∃ rest, s.calls = c :: rest := by
    cases hs : s.calls with
    | nil => simp [hs] at hi
    | cons x xs =>
      rw [hs] at hi
      exact ⟨xs, by rw [Option.some.inj hi]⟩
  have hsame : c'.left = c.left ∧ c'.phase.Exact s.store (seqsOf c'.pairs) := by
    have hexact := h.exact c (by simp [hcalls])
    obtain ⟨pairs, phase, more⟩ := c
    cases phase with
    | begun =>
      cases hread
      exact ⟨rfl, rfl⟩
    | probed rows =>
      cases hread
      obtain rfl : rows = (seqsOf pairs).map (hasRow s.store) := hexact
      exact ⟨rfl, mem_owedSeqs _ _⟩
    | judged =>
      cases hread
      exact ⟨rfl, hexact, fun x hx => graceLeases_unwatched hx⟩
    | leased => cases hread
  have hleft : left { s with calls := s.calls.set 0 c' } = s.left := by
    simp [left, hcalls, hsame.1]
  refine
    { h with
      one := by simpa using h.one
      exact := fun x hx => ?_
      keys := hleft ▸ h.keys
      marked := hleft ▸ h.marked
      hooks := hleft ▸ h.hooks }
  rcases mem_or_eq_of_mem_set hx with hx | rfl
  · exact h.exact x hx
  · exact hsame.2

section Run

variable {pairs : List Pair} {owed : List Nat} {leases : List (Nat × List Op)}

theorem hook_mem_runOps {k : Key} (hk : (q, k) ∈ pairs) (hout : q ∉ owed) :
    .delete (.hook q) ∈ runOps st pairs owed leases := by
  refine mem_flatMap.2 ⟨q, mem_seqsOf.2 ⟨k, hk⟩, ?_⟩
  rw [if_neg hout]
  simp [reclaimOps]

theorem marker_mem_runOps {kind sink : Nat} (hk : (q, .cleared q kind sink) ∈ pairs)
    (hget : st.get (.cleared q kind sink) ≠ none) :
    .delete (.cleared q kind sink) ∈ runOps st pairs owed leases := by
  refine mem_flatMap.2 ⟨q, mem_seqsOf.2 ⟨_, hk⟩, ?_⟩
  split
  · exact mem_map.2 ⟨_, mem_filter.2 ⟨hk, decide_eq_true rfl⟩, rfl⟩
  · exact mem_append_left _
      (mem_append_right _ (mem_map_of_mem (mem_markersOf.2 ⟨kind, sink, rfl, hget⟩)))

end Run

theorem Sweeping.write (h : Sweeping st₀ s)
    (hstep : step cfg s (.write 0) = some s') : Sweeping st₀ s' := by
  simp only [step] at hstep
  split at hstep
  next pairs owed leases rest hi =>
    cases hstep
    have hcalls : s.calls = [⟨pairs, .leased owed leases, rest⟩] := by
      have hone := h.one
      cases hs : s.calls with
      | nil => simp [hs] at hi
      | cons x xs =>
        rw [hs] at hi hone
        cases hi
        cases xs with
        | nil => rfl
        | cons => simp at hone
    obtain ⟨howed, hleases⟩ :
      (owed = (seqsOf pairs).filter fun q => hasRow s.store q || hasArchive s.store q) ∧
        ∀ x ∈ leases, ∀ op ∈ x.2, watched op.key = false :=
      h.exact ⟨pairs, .leased owed leases, rest⟩ (by rw [hcalls]; exact mem_singleton_self _)
    have hleft : s.left = pairs ++ rest.flatten := by simp [left, hcalls, Call.left]
    have hnext : (Call.next ⟨pairs, .leased owed leases, rest⟩).flatMap Call.left = rest.flatten ∧
        (Call.next ⟨pairs, .leased owed leases, rest⟩).length ≤ 1 ∧
        ∀ c ∈ Call.next ⟨pairs, .leased owed leases, rest⟩, c.phase = .begun := by
      cases rest <;> simp [Call.next, Call.left]
    -- On a watched key the batch only deletes hooks and markers.
    have hdeletes : ∀ op ∈ runOps s.store pairs owed leases, watched op.key = true →
        op = .delete op.key ∧
        ((∃ q, op.key = .hook q) ∨ ∃ q kind sink, op.key = .cleared q kind sink) := by
      intro op hop hw
      obtain ⟨q, -, ⟨-, k, hk, rfl⟩ | ⟨-, rfl | ⟨kind, sink, rfl⟩⟩⟩ := mem_runOps hop hw hleases
      · obtain ⟨kind, sink, he⟩ := h.keys (q, k) (by rw [hleft]; exact mem_append_left _ hk)
        exact ⟨rfl, .inr ⟨q, kind, sink, he⟩⟩
      · exact ⟨rfl, .inl ⟨q, rfl⟩⟩
      · exact ⟨rfl, .inr ⟨q, kind, sink, rfl⟩⟩
    have hsame : ∀ k, watched k = true → (∀ q, k ≠ .hook q) →
      (∀ q kind sink, k ≠ .cleared q kind sink) →
        (s.store.write (runOps s.store pairs owed leases)).get k = s.store.get k := by
      intro k hw hhook hcleared
      refine Map.get_untouched _ fun op hop hk => ?_
      rcases (hdeletes op hop (hk ▸ hw)).2 with ⟨q, he⟩ | ⟨q, kind, sink, he⟩
      · exact hhook q (hk.symm.trans he)
      · exact hcleared q kind sink (hk.symm.trans he)
    have hgone : ∀ k, watched k = true → .delete k ∈ runOps s.store pairs owed leases →
        (s.store.write (runOps s.store pairs owed leases)).get k = none := by
      intro k hw hmem
      refine Map.get_write_delete _ hmem fun op hop hk => ?_
      rw [← hk]
      exact (hdeletes op hop (hk ▸ hw)).1
    have hstays : ∀ k, watched k = true → s.store.get k = none →
        (s.store.write (runOps s.store pairs owed leases)).get k = none := by
      intro k hw hnone
      by_contra hsome
      rcases Map.get_write_ne_none hsome with hsome | ⟨op, hop, hc, rfl⟩
      · exact hsome hnone
      · rw [(hdeletes op hop hw).1] at hc
        cases hc
    have hrest : left { s with
        store := s.store.write (runOps s.store pairs owed leases)
        calls := s.calls.eraseIdx 0 ++
            Call.next ⟨pairs, .leased owed leases, rest⟩ } = rest.flatten := by
      simpa [left, hcalls] using hnext.1
    refine
      { one := by simpa [hcalls] using hnext.2.1
        exact := fun c hc => ?_
        keys := fun p hp => ?_
        rows := fun q i =>
        (hsame (.delivery q i) rfl (fun _ => (by simp)) fun _ _ _ => (by simp)).trans (h.rows q i)
        archive := fun q => (hsame (.archivePending q) rfl (fun _ => (by simp)) fun _ _ _ =>
          (by simp)).trans (h.archive q)
        marked := fun q kind sink hget => ?_
        hooks := fun q hq hclear => ?_ }
    · have hc : c ∈ Call.next ⟨pairs, .leased owed leases, rest⟩ := by simpa [hcalls] using hc
      rw [hnext.2.2 c hc]
      trivial
    · rw [hrest] at hp
      exact h.keys p (by rw [hleft]; exact mem_append_right _ hp)
    · have hold : s.store.get (.cleared q kind sink) ≠ none :=
        fun hnone => hget (hstays _ rfl hnone)
      rw [hrest]
      refine (mem_append.1 (hleft ▸ h.marked q kind sink hold)).resolve_left fun hmem => ?_
      exact hget (hgone _ rfl (marker_mem_runOps hmem hold))
    · rw [hrest]
      rcases h.hooks q hq hclear with hnone | ⟨k, hk⟩
      · exact .inl (hstays _ rfl hnone)
      · rcases mem_append.1 (hleft ▸ hk) with hk | hk
        · have hnow : ¬ Owed s.store q :=
            fun ho => hclear (by simpa [Owed, HasRow, h.rows, h.archive] using ho)
          have hout := (Phase.Exact.clear howed (mem_seqsOf.2 ⟨k, hk⟩)).2 hnow
          exact .inl (hgone _ rfl (hook_mem_runOps hk hout))
        · exact .inr ⟨k, hk⟩
  · cases hstep

variable {pairs : List Pair} {rest : List (List Pair)}

theorem exists_call (cfg : Config) (hcalls : s.calls = [⟨pairs, .begun, rest⟩]) :
    ∃ s', exec (step cfg) s [.read 0 0, .read 0 0, .read 0 0, .write 0] = some s' ∧
      s'.calls = Call.next ⟨pairs, .begun, rest⟩ := by
  obtain ⟨store, nextSeq, claimed, hits, segments, calls⟩ := s
  obtain rfl : calls = _ := hcalls
  exact ⟨_, rfl, rfl⟩

/-- A sweep can be carried out to its end. -/
theorem exists_complete (cfg : Config) (hcalls : s.calls = [⟨pairs, .begun, rest⟩]) :
    ∃ es s', (∀ e ∈ es, alone e = true) ∧ exec (step cfg) s es = some s' ∧ s'.calls = [] := by
  have halone : ∀ e ∈ [Event.read 0 0, .read 0 0, .read 0 0, .write 0], alone e = true := by
    simp [alone]
  induction rest generalizing s pairs with
  | nil =>
    obtain ⟨s', hrun, hdone⟩ := exists_call cfg hcalls
    exact ⟨_, s', halone, hrun, hdone⟩
  | cons next rest ih =>
    obtain ⟨u, hrun, hnext⟩ := exists_call cfg hcalls
    obtain ⟨es, s', hes, hexec, hdone⟩ := ih hnext
    refine ⟨_ ++ es, s', fun e he => ?_, exec_append_eq_some.2 ⟨u, hrun, hexec⟩, hdone⟩
    exact (mem_append.1 he).elim (halone e) (hes e)

theorem Sweeping.run (h : Sweeping st₀ s) {es : List Event} (hes : ∀ e ∈ es, alone e = true)
    (hrun : exec (step cfg) s es = some s') : Sweeping st₀ s' := by
  refine invariant_along (fun s e s' hI hP hs => ?_) h
    (Along.of_forall hes) hrun
  unfold alone at hP
  split at hP
  · exact hI.read hs
  · exact hI.write hs
  · cases hP

theorem Sweeping.swept (h : Sweeping st₀ s) (hdone : s.calls = []) (hq : Marked st₀ q) :
    (¬ Owed st₀ q → s.store.get (.hook q) = none) ∧ ¬ Marked s.store q := by
  have hleft : s.left = [] := by simp [left, hdone]
  refine ⟨fun hclear => (h.hooks q hq hclear).resolve_right ?_, ?_⟩
  · rintro ⟨k, hk⟩
    rw [hleft] at hk
    cases hk
  · rintro ⟨kind, sink, hget⟩
    have hmem := h.marked q kind sink hget
    rw [hleft] at hmem
    cases hmem

/-! ## The reclaim is safe and complete -/

/-- A store as a node finds it: the writer's next hooks are new, a dead row is not pending, and
    beside an imported row that waits to be expanded there is no other. -/
structure Booted (s : State) : Prop where
  below : ∀ k q, watched k = true → k.seq? = some q → s.store.get k ≠ none → q < s.nextSeq
  dead : ∀ time q i, s.store.get (.dead time q i) ≠ none → ¬ Pending s.store q i
  imported : ∀ q i, unresolved i = true → Pending s.store q i → ∀ i', i' ≠ i →
    ¬ Pending s.store q i' ∧ (unresolved i' = false → ∀ time, s.store.get (.dead time q i') = none)
  idle : s.claimed = [] ∧ s.hits = [] ∧ s.segments = [] ∧ s.calls = []

theorem Booted.sound (h : Booted s) : Sound s := by
  obtain ⟨hclaimed, hhits, hsegments, hcalls⟩ := h.idle
  have hdoomed : ∀ q i, Doomed s.store s.hits q i → ∃ time,
      s.store.get (.dead time q i) ≠ none := by
    intro q i hd
    refine hd.resolve_right ?_
    rintro ⟨page, hpage, -⟩
    rw [hhits] at hpage
    cases hpage
  refine
    { below := h.below
      rows := by simp [hclaimed]
      apart := by simp [hclaimed]
      dead := fun q i hd => ?_
      imported := fun q i hu hp i' hne => (h.imported q i hu hp i' hne).imp id fun hclear hr hd =>
      ?_
      segments := by simp [hsegments]
      calls := by simp [hcalls] }
  · obtain ⟨time, ht⟩ := hdoomed q i hd
    exact ⟨h.below _ q rfl rfl ht, h.dead time q i ht⟩
  · obtain ⟨time, ht⟩ := hdoomed q i' hd
    exact ht (hclear hr time)

/-- Whatever runs beside each other, a hook is deleted only while nobody is owed it. A sweep can
    always be carried out, and one that nothing runs beside leaves no hook that was marked and that
    nobody is owed, and no marker of a hook that was marked. -/
theorem reclaims {s₀ : State} {es : List Event} (hboot : Booted s₀)
    (hrun : Run.exec (step cfg) s₀ es = some s) :
    (∀ ev s' q, step cfg s ev = some s' → s.store.get (.hook q) ≠ none →
      s'.store.get (.hook q) = none → ¬ Owed s.store q) ∧
    (s.calls = [] → ∃ sw s', (∀ e ∈ sw, alone e = true) ∧
      Run.exec (step cfg) s (.sweep :: sw) = some s' ∧ s'.calls = []) ∧
    ∀ sw s', s.calls = [] → (∀ e ∈ sw, alone e = true) →
    Run.exec (step cfg) s (.sweep :: sw) = some s' →
      s'.calls = [] → ∀ q, Marked s.store q → (¬ Owed s.store q → s'.store.get (.hook q) = none) ∧
      ¬ Marked s'.store q := by
  have hsound := exec_invariant (fun s ev s' hs hstep => hs.step ev hstep) hboot.sound hrun
  refine ⟨fun ev s' q hstep => hsound.hook_gone hstep, fun hidle => ?_,
    fun sw s' hidle halone hsweep hdone q hq => ?_⟩
  · cases hchunks : chunkEvery chunk (markers s.store) [] with
    | nil => exact ⟨[], s, by simp, by simp [exec, step, hchunks], hidle⟩
    | cons pairs rest =>
      obtain ⟨sw, s', halone, hexec, hdone⟩ :=
        exists_complete (s := { s with calls := [⟨pairs, .begun, rest⟩] }) cfg rfl
      refine ⟨sw, s', halone, exec_cons_eq_some.2 ⟨_, ?_, hexec⟩, hdone⟩
      simp [step, hchunks, hidle]
  · obtain ⟨u, hstart, hexec⟩ := exec_cons_eq_some.1 hsweep
    exact ((Sweeping.start hidle hstart).run halone hexec).swept hdone hq

/-- A fresh node. -/
def State.start : State := ⟨∅, 1, [], [], [], []⟩

theorem booted_start : Booted State.start where
  below k _ _ _ hget := absurd (Map.get_empty k) hget
  dead _ _ _ hget := absurd (Map.get_empty _) hget
  imported _ _ _ hp := absurd hp (not_pending_of_ne_row (Map.get_empty _))
  idle := ⟨rfl, rfl, rfl, rfl⟩

/-- No grace and no claims. -/
def plain : Config := ⟨0, fun _ => none⟩

/-- The row of a hook with one sink. -/
def oneSink : Row := newRow "Http" 0 1 "stripe" none none

/-- A hook with one delivery and an archive obligation: both are cleared, and the call that follows
    the delivery has read that the hook has no row. -/
def bothCleared : List Event :=
  [.commit [⟨⟨"a", none, "stripe", none⟩, [1], [some (oneSink, none)], none⟩] 0 true
    [("default", 1)], .segment [1],
   .claim [⟨1, 1, 0, 1, oneSink⟩], .settle [(⟨1, 1, 0, 1, oneSink⟩, .outcome .delivered)] 0 1,
   .read 0 0, .archived 0]

theorem bothCleared_reclaimed :
    (∃ s s', Run.exec (step plain) .start (bothCleared ++ [.read 0 0, .read 0 0]) = some s ∧
      step plain s (.write 0) = some s' ∧ s.store.get (.hook 1) ≠ none ∧
      s'.store.get (.hook 1) = none ∧ ¬ Owed s.store 1) ∧
    ∃ s s', Run.exec (step plain) .start (bothCleared ++ [.restart]) = some s ∧
    s.store.get (.hook 1) ≠ none ∧
      Run.exec (step plain) s [.sweep, .read 0 0, .read 0 0, .read 0 0, .write 0] = some s' ∧
      s'.store.get (.hook 1) = none ∧ ¬ Marked s'.store 1 := by
  constructor
  · obtain ⟨s, hs, hthere, hgone⟩ := of_exec (f := step plain) (s := .start)
      (l := bothCleared ++ [.read 0 0, .read 0 0])
      (P := fun s => s.store.get (.hook 1) ≠ none ∧
        (step plain s (.write 0)).any (fun s' => (s'.store.get (.hook 1)).isNone) = true)
          (by decide +kernel)
    obtain ⟨s', hs', hnone⟩ := (any_eq_true _ _).1 hgone
    exact ⟨s, s', hs, hs', hthere, isNone_iff_eq_none.1 hnone,
      (reclaims booted_start hs).1 _ s' 1 hs' hthere (isNone_iff_eq_none.1 hnone)⟩
  · obtain ⟨s, hs, hthere, hmarked, hrow, harchive, hidle, hsweep⟩ :=
      of_exec (f := step plain) (s := .start) (l := bothCleared ++ [.restart])
      (P := fun s => s.store.get (.hook 1) ≠ none ∧ s.store.get (.cleared 1 1 0) ≠ none ∧
        hasRow s.store 1 = false ∧ s.store.get (.archivePending 1) = none ∧ s.calls = [] ∧
        (exec (step plain) s [.sweep, .read 0 0, .read 0 0, .read 0 0, .write 0]).any
          (fun s' => s'.calls.isEmpty) = true) (by decide +kernel)
    obtain ⟨s', hs', hdone⟩ := (any_eq_true _ _).1 hsweep
    have hclear : ¬ Owed s.store 1 := by
      rintro (hr | ha)
      · rw [hasRow_iff.2 hr] at hrow
        cases hrow
      · exact ha harchive
    obtain ⟨hgone, hnot⟩ :=
      (reclaims booted_start hs).2.2 [.read 0 0, .read 0 0, .read 0 0, .write 0] s' hidle
      (by decide) hs' (isEmpty_iff.1 hdone) 1 ⟨1, 0, hmarked⟩
    exact ⟨s, s', hs, hthere, hs', hgone hclear, hnot⟩

end Ankusa.Reclaim
