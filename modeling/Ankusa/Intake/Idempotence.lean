import Ankusa.Intake.Recovery

set_option autoImplicit false

/-! # Replaying the log again

A node that stops during a replay starts it again, so a second replay of a log must add nothing to
the first. It adds something exactly when it writes a hook (`same_iff_written_nil`), and it writes
none exactly when the seqs of the hooks that are owed are not in dispute: each of them is free or
held by that very hook, no two of these hooks share one, and no record of another hook comes before
it in its chunk under the same seq (`Undisputed`). A hook that lost its seq to another one is
written again by every replay, under another fresh seq. -/

namespace Ankusa.Intake.Recovery

open List Option Deliveries Run

/-! ## A replay that writes no hook -/

/-- The two stores hold the same hooks, rows, dedupe keys and counters: everything but the marker of
    the next seq and the tenants' ordinals. -/
def Same (s t : Store) : Prop :=
  ∀ k : Key, k.family ≠ .marker → k.family ≠ .tenant → s.get k = t.get k

theorem coalesce_of_no_merges {ops : List Op} (h : ∀ op ∈ ops, op.merges = false) {op : Op}
    (hop : op ∈ coalesce ops) : op ∈ ops := by
  have hnil : counterDeltas ops = [] := by
    refine filterMap_eq_nil_iff.2 fun o ho => ?_
    have := h o ho
    cases o with
    | put | delete => rfl
    | merge => cases this
  rw [coalesce, hnil] at hop
  have hkeep : op ∈ keepOnce [] ops := by
    simpa [Counters.merges, Counters.sumBy] using hop
  exact mem_keepOnce hkeep

section Quiet

variable {ctx : Ctx} {s : Store} {st st' : State} {records : List Record}

theorem same_of_quiet_chunk (hst : Kept s st) (h : applyChunk ctx st records = some st')
    (hquiet : st'.written = st.written) : Same st.store st'.store := by
  obtain ⟨acc, hacc, -, hwritten, hstore⟩ := applyChunk_eq_some h
  have hputs : Puts st.store st.nextSeq acc :=
    exec_invariant (fun _ _ _ hu hstep => puts_step hst.below hu hstep) (puts_empty _ _) hacc
  have hnil : acc.written = [] := by simpa [hquiet] using hwritten
  intro k hmarker htenant
  rw [hstore, hputs.quiet hnil, nil_append]
  refine (st.store.get_untouched fun op hop hk => ?_).symm
  have hmem := coalesce_of_no_merges (fun o ho => ?_) hop
  · rcases mem_cons.1 hmem with rfl | hmem
    · exact hmarker (hk ▸ rfl)
    · exact htenant (hk ▸ (tenant_of_mem_resolveTenants hmem).1)
  · rcases mem_cons.1 ho with rfl | ho
    · rfl
    · exact (tenant_of_mem_resolveTenants ho).2

variable {t : State} {chunks : List (List Record)}

/-- A replay only adds to the hooks written. -/
theorem written_prefix (h : exec (applyChunk ctx) st chunks = some t) :
    ∃ more, t.written = st.written ++ more := by
  induction chunks generalizing st with
  | nil =>
    cases h
    exact ⟨[], by simp⟩
  | cons chunk chunks ih =>
    obtain ⟨mid, hmid, hrest⟩ := exec_cons_eq_some.1 h
    obtain ⟨acc, -, -, hwritten, -⟩ := applyChunk_eq_some hmid
    obtain ⟨more, hmore⟩ := ih hrest
    exact ⟨acc.written ++ more, by rw [hmore, hwritten, append_assoc]⟩

theorem Same.trans {a b c : Store} (hab : Same a b) (hbc : Same b c) : Same a c :=
  fun k h₁ h₂ => (hab k h₁ h₂).trans (hbc k h₁ h₂)

theorem same_of_quiet (hst : Kept s st)
    (h : exec (applyChunk ctx) st chunks = some t) (hquiet : t.written = st.written) :
    Same st.store t.store := by
  induction chunks generalizing st with
  | nil =>
    cases h
    exact fun _ _ _ => rfl
  | cons chunk chunks ih =>
    obtain ⟨mid, hmid, hrest⟩ := exec_cons_eq_some.1 h
    obtain ⟨acc, -, -, hwritten, -⟩ := applyChunk_eq_some hmid
    obtain ⟨more, hmore⟩ := written_prefix hrest
    -- nothing is added in total, so nothing is added by the first chunk or by the rest
    have hnil : acc.written ++ more = [] := by
      rw [hmore, hwritten, append_assoc] at hquiet
      simpa using hquiet
    obtain ⟨hacc, hrestnil⟩ := append_eq_nil_iff.1 hnil
    have hmidw : mid.written = st.written := by rw [hwritten, hacc, append_nil]
    exact (same_of_quiet_chunk hst hmid hmidw).trans
      (ih (kept_step hst hmid) hrest (by rw [hmore, hrestnil, append_nil]))

/-- A replay changes the store exactly when it writes a hook. -/
theorem same_iff_written_nil {n : Nat} {log : List Record} {u : State}
    (h : replay ctx n s log = some u) : Same s u.store ↔ u.written = [] := by
  constructor
  · intro hsame
    have hadded : Added s u := (exec_invariant (I := fun v => Kept s v ∧ Added s v)
        (fun _ _ _ hv hstep => ⟨kept_step hv.1 hstep, added_step hv.1 hv.2 hstep⟩)
        ⟨kept_start s, fun _ _ hq => absurd hq not_mem_nil⟩ h).2
    refine eq_nil_iff_forall_not_mem.2 fun p hp => ?_
    obtain ⟨hnone, hsome⟩ := hadded p.1 p.2 hp
    rw [hsame (.hook p.1) (by simp [Key.family]) (by simp [Key.family])] at hnone
    exact hsome hnone
  · intro hnil
    exact same_of_quiet (kept_start s) h hnil

end Quiet

/-! ## Seqs in dispute -/

/-- The hook of the record is stored under the record's own seq. -/
def Holds (ctx : Ctx) (s : Store) (r : Record) : Prop :=
  ∃ v, s.get (.hook r.seq) = some v ∧ storedId ctx v = some r.id

/-- A record before another of its chunk does not take its seq for a different hook, if that hook is
    owed. -/
def Yields (ctx : Ctx) (r' r : Record) : Prop :=
  ctx.owed r = true → r'.seq = r.seq → r'.id = r.id

instance (ctx : Ctx) : DecidableRel (Yields ctx) :=
  fun r' r => inferInstanceAs (Decidable (ctx.owed r = true → r'.seq = r.seq → r'.id = r.id))

/-- No seq of a hook that is owed is in dispute: the store holds nothing else under it, no other
    such hook of the log has it, and no other hook's record comes before it in its chunk. -/
structure Undisputed (ctx : Ctx) (n : Nat) (s : Store) (log : List Record) : Prop where
  stored : ∀ r ∈ log, ctx.owed r = true → ∀ v, s.get (.hook r.seq) = some v →
    storedId ctx v = some r.id
  agree : ∀ r ∈ log, ∀ r' ∈ log, ctx.owed r = true → ctx.owed r' = true → r.seq = r'.seq →
    r.id = r'.id
  ordered : ∀ chunk ∈ chunked n [] log, chunk.Pairwise (Yields ctx)

section Chunk

variable {ctx : Ctx} {log : List Record} {s : Store} {ords : List (String × Nat)} {acc acc' : Acc}
  {records : List Record} {r : Record} {nextSeq : Nat}

theorem exec_concat (h : exec (takeRecord ctx s ords) acc (records ++ [r]) = some acc') :
    ∃ mid, exec (takeRecord ctx s ords) acc records = some mid ∧
      takeRecord ctx s ords mid r = some acc' := by
  obtain ⟨mid, hmid, hlast⟩ := exec_append_eq_some.1 h
  obtain ⟨last, htake, hnil⟩ := exec_cons_eq_some.1 hlast
  cases hnil
  exact ⟨mid, hmid, htake⟩

/-- Every record of a chunk is remembered as written or was stored under its seq, and what is
    remembered are records of the chunk. -/
theorem seen_exec (h : exec (takeRecord ctx s ords) (Acc.empty nextSeq) records = some acc') :
    (∀ r ∈ records, (∃ id, (r.seq, id) ∈ acc'.seen) ∨ Holds ctx s r) ∧
      ∀ q id, (q, id) ∈ acc'.seen → ∃ r ∈ records, r.seq = q ∧ r.id = id := by
  induction records using List.reverseRecOn generalizing acc' with
  | nil =>
    cases h
    exact ⟨forall_mem_nil _, fun _ _ hq => absurd hq not_mem_nil⟩
  | append_singleton records a ih =>
    obtain ⟨mid, hmid, hlast⟩ := exec_concat h
    obtain ⟨hnoted, horigin⟩ := ih hmid
    have hwrote : ∀ fresh, Wrote ctx mid a acc' fresh →
        (∀ r ∈ records ++ [a], (∃ id, (r.seq, id) ∈ acc'.seen) ∨ Holds ctx s r) ∧
        ∀ q id, (q, id) ∈ acc'.seen → ∃ r ∈ records ++ [a], r.seq = q ∧ r.id = id := by
      intro fresh hw
      rw [hw.seen]
      refine ⟨forall_mem_append.2 ⟨fun r hr => ?_,
        forall_mem_singleton.2 (.inl ⟨a.id, mem_cons_self⟩)⟩, fun q id hq => ?_⟩
      · exact (hnoted r hr).imp_left fun ⟨id, hid⟩ => ⟨id, mem_cons_of_mem _ hid⟩
      · rcases mem_cons.1 hq with heq | hq
        · obtain ⟨rfl, rfl⟩ := Prod.mk.inj heq
          exact ⟨a, by simp, rfl, rfl⟩
        · obtain ⟨r, hr, hrq⟩ := horigin q id hq
          exact ⟨r, mem_append_left _ hr, hrq⟩
    rcases takeRecord_cases hlast with ⟨hd, rfl⟩ | ⟨-, hw⟩ | ⟨-, hw⟩
    · refine ⟨forall_mem_append.2 ⟨hnoted, forall_mem_singleton.2 ?_⟩, fun q id hq => ?_⟩
      · exact (present_cases hd).imp (fun hmem => ⟨_, hmem⟩) And.right
      · obtain ⟨r, hr, hrq⟩ := horigin q id hq
        exact ⟨r, mem_append_left _ hr, hrq⟩
    · exact hwrote false hw
    · exact hwrote true hw

theorem seenWritten_exec (hlog : Logged ctx log) (hsub : ∀ r ∈ records, r ∈ log)
    (h : exec (takeRecord ctx s ords) (Acc.empty nextSeq) records = some acc') :
    SeenWritten ctx log acc' := by
  refine invariant_along (I := SeenWritten ctx log) (fun _ _ _ hseen hr hstep => ?_)
    (fun _ _ hid => absurd hid not_mem_nil) (.of_forall hsub) h
  exact (taken_step hlog hr hseen hstep).2.1

/-- An owed record that the chunk does not write is stored under its seq, and nothing is remembered
    there. -/
theorem holds_of_quiet (hr : r ∈ log) (ho : ctx.owed r = true) (hseen : SeenWritten ctx log acc)
    (hquiet : acc'.written = []) (hmono : ∀ p ∈ acc.written, p ∈ acc'.written)
    (h : takeRecord ctx s ords acc r = some acc') :
    Holds ctx s r ∧ ∀ id, (r.seq, id) ∉ acc.seen := by
  have hnot : ∀ fresh, ¬ Wrote ctx acc r acc' fresh := by
    intro fresh hw
    obtain ⟨rest, -, -, hwritten⟩ := hw.put ho
    rw [hquiet] at hwritten
    cases hwritten
  have hnil : acc.written = [] :=
    eq_nil_iff_forall_not_mem.2 fun p hp => absurd (hmono p hp) (by simp [hquiet])
  rcases takeRecord_cases h with ⟨hd, -⟩ | ⟨-, hw⟩ | ⟨-, hw⟩
  · rcases present_cases hd with hmem | ⟨hnone, hholds⟩
    · -- a record of the same hook was written before, but nothing was
      obtain ⟨q, hq⟩ := hseen r.seq r.id hmem r hr rfl ho
      simp [hnil] at hq
    · exact ⟨hholds, fun id hid => by simpa using lookup_eq_none_iff.1 hnone _ hid⟩
  · exact absurd hw (hnot false)
  · exact absurd hw (hnot true)

variable (hlog : Logged ctx log) (hsub : ∀ r ∈ records, r ∈ log)
  (h : exec (takeRecord ctx s ords) (Acc.empty nextSeq) records = some acc')
include hlog hsub h

/-- A chunk that writes nothing has every owed hook stored under its seq, with no other hook's
    record before it. -/
theorem undisputed_of_quiet (hquiet : acc'.written = []) :
    (∀ r ∈ records, ctx.owed r = true → Holds ctx s r) ∧ records.Pairwise (Yields ctx) := by
  induction records using List.reverseRecOn generalizing acc' with
  | nil => exact ⟨forall_mem_nil _, .nil⟩
  | append_singleton records a ih =>
    obtain ⟨mid, hmid, hlast⟩ := exec_concat h
    have hsub' : ∀ r ∈ records, r ∈ log := fun r hr => hsub r (mem_append_left _ hr)
    have ha : a ∈ log := hsub a (by simp)
    have hseen := seenWritten_exec hlog hsub' hmid
    have hmono := (taken_step hlog ha hseen hlast).1
    have hmidnil : mid.written = [] :=
      eq_nil_iff_forall_not_mem.2 fun p hp => absurd (hmono p hp) (by simp [hquiet])
    obtain ⟨hholds, hpair⟩ := ih hsub' hmid hmidnil
    have hlastHolds : ctx.owed a = true → Holds ctx s a ∧ ∀ id, (a.seq, id) ∉ mid.seen :=
      fun ho => holds_of_quiet ha ho hseen hquiet hmono hlast
    refine ⟨forall_mem_append.2 ⟨hholds, forall_mem_singleton.2 fun ho => (hlastHolds ho).1⟩,
      pairwise_append.2 ⟨hpair, pairwise_singleton _ _, ?_⟩⟩
    · intro r' hr' r hr ho hseq
      obtain rfl := mem_singleton.1 hr
      obtain ⟨⟨v, hv, hid⟩, hnone⟩ := hlastHolds ho
      rcases (seen_exec hmid).1 r' hr' with ⟨id, hmem⟩ | ⟨v', hv', hid'⟩
      · rw [hseq] at hmem
        exact absurd hmem (hnone id)
      · rw [hseq, hv] at hv'
        rw [← some.inj hv', hid] at hid'
        exact (some.inj hid').symm

/-- A chunk without disputes writes the owed hooks under their own seqs, where none was stored, and
    leaves each of them stored there or written there. -/
theorem settled_exec (hstored : ∀ r ∈ log, ctx.owed r = true → ∀ v, s.get (.hook r.seq) = some v →
      storedId ctx v = some r.id) (hpair : records.Pairwise (Yields ctx)) :
    (∀ q b, (q, b) ∈ acc'.written → ∃ r ∈ log, ctx.owed r = true ∧ r.seq = q ∧ r.bin = b ∧
      s.get (.hook q) = none) ∧ ∀ r ∈ records, ctx.owed r = true →
        (∃ b, (r.seq, b) ∈ acc'.written) ∨ Holds ctx s r := by
  induction records using List.reverseRecOn generalizing acc' with
  | nil =>
    cases h
    exact ⟨fun _ _ hq => absurd hq not_mem_nil, forall_mem_nil _⟩
  | append_singleton records a ih =>
    obtain ⟨mid, hmid, hlast⟩ := exec_concat h
    have hsub' : ∀ r ∈ records, r ∈ log := fun r hr => hsub r (mem_append_left _ hr)
    have ha : a ∈ log := hsub a (by simp)
    obtain ⟨hpair', -, hyields⟩ := pairwise_append.1 hpair
    obtain ⟨hwritten, hsettled⟩ := ih hsub' hmid hpair'
    have hmono := (taken_step hlog ha (seenWritten_exec hlog hsub' hmid) hlast).1
    have hold : ∀ r ∈ records, ctx.owed r = true → (∃ b, (r.seq, b) ∈ acc'.written) ∨
        Holds ctx s r := by
      intro r hr ho
      exact (hsettled r hr ho).imp_left fun ⟨b, hb⟩ => ⟨b, hmono _ hb⟩
    by_cases ho : ctx.owed a = true
    · -- an owed record is never moved to a fresh seq
      have hlookup : ∀ id, mid.seen.lookup a.seq = some id → id = a.id := by
        intro id hid
        obtain ⟨l₁, l₂, hl, -⟩ := lookup_eq_some_iff.1 hid
        obtain ⟨r, hr, hseq, rfl⟩ := (seen_exec hmid).2 a.seq id (by simp [hl])
        exact hyields r hr a (by simp) ho hseq
      rcases takeRecord_cases hlast with ⟨hd, rfl⟩ | ⟨hd, hw⟩ | ⟨hd, hw⟩
      · refine ⟨hwritten, forall_mem_append.2 ⟨hold, forall_mem_singleton.2 fun _ => ?_⟩⟩
        rcases present_cases hd with hmem | ⟨-, hh⟩
        · obtain ⟨r, hr, hseq, hid⟩ := (seen_exec hmid).2 _ _ hmem
          have hbin := hlog.hooks r (hsub' r hr) a ha hid
          rcases hsettled r hr (Ctx.owed_congr hbin ▸ ho) with ⟨b, hb⟩ | ⟨v, hv, hvid⟩
          · exact .inl ⟨b, hseq ▸ hb⟩
          · exact .inr ⟨v, hseq ▸ hv, hid ▸ hvid⟩
        · exact .inr hh
      · obtain ⟨rest, -, -, hwr⟩ := hw.put ho
        refine ⟨fun q b hqb => ?_, forall_mem_append.2 ⟨hold, forall_mem_singleton.2 fun _ => ?_⟩⟩
        · rw [hwr] at hqb
          rcases mem_cons.1 hqb with heq | hqb
          · obtain ⟨rfl, rfl⟩ := Prod.mk.inj heq
            exact ⟨a, ha, ho, rfl, rfl, (absent_of_original hd).2⟩
          · exact hwritten q b hqb
        · exact .inl ⟨a.bin, hwr ▸ mem_cons_self⟩
      · exfalso
        unfold decision at hd
        split at hd
        next id hl =>
          rw [if_pos (hlookup id hl)] at hd
          cases hd
        next =>
          unfold decideStored at hd
          split at hd
          · cases hd
          next v hv =>
            rw [if_pos (hstored a ha ho v hv)] at hd
            cases hd
    · -- a hook nobody is owed leaves nothing, whatever is decided
      have hsame : acc'.written = mid.written := by
        rcases takeRecord_cases hlast with ⟨-, rfl⟩ | ⟨-, hw⟩ | ⟨-, hw⟩
        · rfl
        · exact (hw.skipped (by simpa using ho)).2
        · exact (hw.skipped (by simpa using ho)).2
      exact ⟨hsame ▸ hwritten,
        forall_mem_append.2 ⟨hold, forall_mem_singleton.2 fun hop => absurd hop ho⟩⟩

/-- Where every owed hook is stored under its seq, a chunk without disputes writes nothing. -/
theorem quiet_exec (hholds : ∀ r ∈ log, ctx.owed r = true → Holds ctx s r)
    (hpair : records.Pairwise (Yields ctx)) : acc'.written = [] := by
  have hstored : ∀ r ∈ log, ctx.owed r = true → ∀ v, s.get (.hook r.seq) = some v →
      storedId ctx v = some r.id := by
    intro r hr ho v hv
    obtain ⟨v', hv', hid⟩ := hholds r hr ho
    exact some.inj (hv'.symm.trans hv) ▸ hid
  refine eq_nil_iff_forall_not_mem.2 fun p hp => ?_
  obtain ⟨r, hr, ho, hseq, -, hnone⟩ := (settled_exec hlog hsub h hstored hpair).1 _ _ hp
  obtain ⟨v, hv, -⟩ := hholds r hr ho
  rw [hseq, hnone] at hv
  cases hv

end Chunk

/-! ## Two replays -/

section Twice

variable {ctx : Ctx} {log : List Record} {n : Nat} {s : Store}

theorem Holds.mono {a b : Store} {r : Record}
    (hmono : ∀ q v, a.get (.hook q) = some v → b.get (.hook q) = some v) (h : Holds ctx a r) :
    Holds ctx b r := by
  obtain ⟨v, hv, hid⟩ := h
  exact ⟨v, hmono _ _ hv, hid⟩

variable {t : State} (hlog : Logged ctx log)
include hlog

/-- After a replay without disputes every owed hook is stored under its own seq. -/
theorem holds_of_undisputed (hu : Undisputed ctx n s log)
    (h : replay ctx n s log = some t) : ∀ r ∈ log, ctx.owed r = true → Holds ctx t.store r := by
  have hchunks : ∀ c ∈ chunked n [] log, (∀ r ∈ c, r ∈ log) ∧ c.Pairwise (Yields ctx) := fun c hc =>
    ⟨fun r hr => mem_chunked_iff.1 ⟨c, hc, hr⟩, hu.ordered c hc⟩
  have hstep : ∀ st chunk mid,
    (Kept s st ∧ ∀ r ∈ log, ctx.owed r = true → ∀ v, st.store.get (.hook r.seq) = some v →
      storedId ctx v = some r.id) → (∀ r ∈ chunk, r ∈ log) ∧ chunk.Pairwise (Yields ctx) →
      applyChunk ctx st chunk = some mid → (Kept s mid ∧ ∀ r ∈ log, ctx.owed r = true → ∀ v,
        mid.store.get (.hook r.seq) = some v → storedId ctx v = some r.id) ∧
        ∀ r ∈ chunk, ctx.owed r = true → Holds ctx mid.store r := by
    rintro st chunk mid ⟨hst, hstored⟩ ⟨hsub, hpair⟩ hmid
    obtain ⟨acc, hacc, -, -, -, hafter⟩ := chunk_cases hst hmid
    obtain ⟨hwritten, hsettled⟩ := settled_exec hlog hsub hacc hstored hpair
    -- a hook the chunk left under the seq of an owed record is that record's
    have hid : ∀ r ∈ log, ctx.owed r = true → ∀ b, (r.seq, b) ∈ acc.written →
        storedId ctx (.hook b) = some r.id := by
      intro r hr ho b hb
      obtain ⟨r₀, hr₀, ho₀, hseq, rfl, -⟩ := hwritten _ _ hb
      simp only [Ctx.owed, Option.any_eq_true] at ho₀
      obtain ⟨e, he, howes⟩ := ho₀
      have hr₀id := hlog.ids r₀ hr₀ e he
      have hagree := hu.agree r₀ hr₀ r hr (by simp [Ctx.owed, he, howes]) ho hseq
      simp [storedId, he, hr₀id, hagree]
    refine ⟨⟨kept_step hst hmid, fun r hr ho v hv => ?_⟩, fun r hr ho => ?_⟩
    · rcases hafter r.seq with ⟨-, heq⟩ | ⟨b, hb, -, hget⟩
      · exact hstored r hr ho v (heq ▸ hv)
      · rw [hget] at hv
        exact some.inj hv ▸ hid r hr ho b hb
    · rcases hsettled r hr ho with ⟨b, hb⟩ | hholds
      · rcases hafter r.seq with ⟨hnot, -⟩ | ⟨b', hb', -, hget⟩
        · exact absurd hb (hnot b)
        · exact ⟨_, hget, hid r (hsub r hr) ho b' hb'⟩
      · exact hholds.mono fun _ _ hv => hook_mono_of_cases hafter hv
  intro r hr ho
  obtain ⟨chunk, hchunk, hrc⟩ := mem_chunked_iff.2 hr
  obtain ⟨pre, post, u, v, heq, hpre, hv, hpost⟩ := exec_mem h hchunk
  have hI := invariant_along (fun st c mid hI hP hmid => (hstep st c mid hI hP hmid).1)
    ⟨kept_start s, hu.stored⟩ (.of_forall fun c hc => hchunks c (heq ▸ mem_append_left _ hc)) hpre
  obtain ⟨hkept, hholds⟩ := hstep u chunk v hI (hchunks chunk hchunk) hv
  exact (hholds r hrc ho).mono fun _ _ hv => hook_mono_exec hkept.1 hpost hv

/-- A replay over a store that holds every owed hook under its seq writes nothing. -/
theorem quiet_of_holds (hholds : ∀ r ∈ log, ctx.owed r = true → Holds ctx s r)
    (hordered : ∀ chunk ∈ chunked n [] log, chunk.Pairwise (Yields ctx))
    (h : replay ctx n s log = some t) : t.written = [] := by
  have hchunks : ∀ c ∈ chunked n [] log, (∀ r ∈ c, r ∈ log) ∧ c.Pairwise (Yields ctx) := fun c hc =>
    ⟨fun r hr => mem_chunked_iff.1 ⟨c, hc, hr⟩, hordered c hc⟩
  refine (invariant_along (I :=
    fun st => Kept s st ∧ st.written = []) (fun st chunk mid hst hchunk hmid => ?_)
    ⟨kept_start s, rfl⟩ (.of_forall hchunks) h).2
  obtain ⟨acc, hacc, -, -, hwritten, -⟩ := chunk_cases hst.1 hmid
  have haccnil :=
    quiet_exec hlog hchunk.1 hacc (fun r hr ho => (hholds r hr ho).mono hst.1.hooks) hchunk.2
  exact ⟨kept_step hst.1 hmid, by rw [hwritten, hst.2, haccnil, nil_append]⟩

/-- A replay that writes nothing found every owed hook under its seq. -/
theorem holds_of_written_nil (h : replay ctx n s log = some t) (hnil : t.written = []) :
    (∀ r ∈ log, ctx.owed r = true → Holds ctx s r) ∧
      ∀ chunk ∈ chunked n [] log, chunk.Pairwise (Yields ctx) := by
  have hall : ∀ chunk ∈ chunked n [] log,
      (∀ r ∈ chunk, ctx.owed r = true → Holds ctx s r) ∧ chunk.Pairwise (Yields ctx) := by
    intro chunk hchunk
    obtain ⟨pre, post, u, v, -, hu, hv, hpost⟩ := exec_mem h hchunk
    have hkept : Kept s u :=
      exec_invariant (fun _ _ _ hI hstep => kept_step hI hstep) (kept_start s) hu
    obtain ⟨acc, hacc, -, -, hwritten, -⟩ := chunk_cases hkept hv
    obtain ⟨more, hmore⟩ := written_prefix hpost
    have hnone : u.written ++ (acc.written ++ more) = [] := by
      rw [← append_assoc, ← hwritten, ← hmore, hnil]
    obtain ⟨hunil, haccmore⟩ := append_eq_nil_iff.1 hnone
    obtain ⟨hholds, hpair⟩ :=
      undisputed_of_quiet hlog (fun r hr => mem_chunked_iff.1 ⟨chunk, hchunk, hr⟩) hacc
      (append_eq_nil_iff.1 haccmore).1
    refine ⟨fun r hr ho => (hholds r hr ho).mono fun q v hv => ?_, hpair⟩
    exact (same_of_quiet (kept_start s) hu hunil (.hook q) (by simp [Key.family])
      (by simp [Key.family])).trans hv
  refine ⟨fun r hr ho => ?_, fun chunk hchunk => (hall chunk hchunk).2⟩
  obtain ⟨chunk, hchunk, hrc⟩ := mem_chunked_iff.2 hr
  exact (hall chunk hchunk).1 r hrc ho

/-- **A second replay adds nothing exactly when no seq is in dispute.** For any store and any log,
in any order and with any repetitions, and at whatever times the two replays run: the second leaves
the hooks, rows, dedupe keys and counters of the first as they are if and only if `Undisputed`. -/
theorem replay_twice_iff {t u : State} {now : Ms} (hfirst : replay ctx n s log = some t)
    (hsecond : replay { ctx with now := now } n t.store log = some u) :
    Same t.store u.store ↔ Undisputed ctx n s log := by
  have hlog' : Logged { ctx with now := now } log := ⟨hlog.ids, hlog.hooks⟩
  rw [same_iff_written_nil hsecond]
  constructor
  · intro hnil
    obtain ⟨hholds, hordered⟩ := holds_of_written_nil hlog' hsecond hnil
    refine ⟨fun r hr ho v hv => ?_, fun r hr r' hr' ho ho' hseq => ?_, hordered⟩
    · obtain ⟨v', hv', hid⟩ := hholds r hr ho
      rw [hook_mono_exec (kept_start s) hfirst hv] at hv'
      exact some.inj hv' ▸ hid
    · obtain ⟨v, hv, hid⟩ := hholds r hr ho
      obtain ⟨v', hv', hid'⟩ := hholds r' hr' ho'
      rw [hseq, hv'] at hv
      rw [some.inj hv, hid] at hid'
      exact some.inj hid'
  · intro hu
    have hholds := holds_of_undisputed hlog hu hfirst
    exact quiet_of_holds hlog' hholds hu.ordered hsecond

end Twice

/-- Two hooks with different seqs, one of them twice, replayed an hour apart. -/
theorem replay_twice_iff_repeated : ∃ t u, replay edge 500 (∅ : Store)
    [recA 3, recC 1, recA 3] = some t ∧
      replay { edge with now := 3600000 } 500 t.store [recA 3, recC 1, recA 3] = some u ∧
      Same t.store u.store := by
  have hlog : Logged edge [recA 3, recC 1, recA 3] := ⟨by decide +kernel, by decide +kernel⟩
  have hu : Undisputed edge 500 (∅ : Store) [recA 3, recC 1, recA 3] :=
    ⟨fun r _ _ v hv => by simp at hv, by decide +kernel, by decide +kernel⟩
  obtain ⟨t, ht, hsome⟩ := of_exec (f := applyChunk edge) (s := start (∅ : Store))
    (l := chunked 500 [] [recA 3, recC 1, recA 3])
    (P := fun t => (replay { edge with now := 3600000 } 500 t.store
      [recA 3, recC 1, recA 3]).isSome = true) (by decide +kernel)
  obtain ⟨u, hsecond⟩ := isSome_iff_exists.1 hsome
  exact ⟨t, u, ht, hsecond, (replay_twice_iff hlog ht hsecond).2 hu⟩

/-- A hook that lost its seq is written again by the second replay. -/
theorem replay_twice_moved : ∃ t u, replay edge 500 holdsB [recA 1] = some t ∧
      replay edge 500 t.store [recA 1] = some u ∧ t.store.get (.hook 3) = none ∧
      u.store.get (.hook 3) = some (.hook [1]) := by
  obtain ⟨t, ht, hnone, hany⟩ := of_exec (f := applyChunk edge) (s := start holdsB)
    (l := chunked 500 [] [recA 1])
    (P := fun t => t.store.get (.hook 3) = none ∧ (replay edge 500 t.store [recA 1]).any (fun u =>
      decide (u.store.get (.hook 3) = some (.hook [1]))) = true) (by decide +kernel)
  obtain ⟨u, hsecond, hget⟩ := (Option.any_eq_true _ _).1 hany
  exact ⟨t, u, ht, hsecond, hnone, of_decide_eq_true hget⟩

end Ankusa.Intake.Recovery
