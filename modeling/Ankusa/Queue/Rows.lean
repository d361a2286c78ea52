import Ankusa.Queue.Fence
import Ankusa.Queue.Written

set_option autoImplicit false

/-! # The rows in the store

Every stored row belongs to a hook no fence has deleted: either its hook is durable, or its group
put it and is still listed, so that a fence would delete it (`Kept`). Dispatch moves rows of durable
hooks only, as long as every row a claim round reads is durable (`DispatchOk`); its buffers then
hold no row a fence could delete, and nothing comes back after a fence (`Rows`). -/

namespace Ankusa

/-- The seq is below the stored marker. -/
def Numbered (store : Store) (q : Nat) : Prop := ∃ m, store.get .nextSeq = some (.num m) ∧ q < m

/-- Every row's seq is below the stored marker. Each batch of new hooks carries the marker, so every
    store the queue leaves behind is like this (`Orderly.seqMarked`). -/
def SeqMarked (store : Store) : Prop :=
  ∀ k q, k.seq? = some q → store.get k ≠ none → Numbered store q

namespace Node

open Writer Option

/-! ## What is kept -/

/-- A hook that is durable and that no fence has deleted, or ever will. -/
structure State.Settled (s : State) (q : Nat) : Prop where
  numbered : Numbered s.store q
  durable : q ≤ s.marks.durable
  kept : ¬ s.Undone q

/-- A stored row: its hook is not deleted, and is durable unless a listed group has the row among
    the operations a fence takes back. -/
structure State.Kept (s : State) (k : Key) (q : Nat) : Prop where
  numbered : Numbered s.store q
  kept : ¬ s.Undone q
  listed : q ≤ s.marks.durable ∨
    ∃ b, s.ghost.birth q = some b ∧ ∀ g ∈ s.groups, s.ghost.birth g.upto = some b → g.Puts k

/-- The rows in the store and in the pipeline's memory. -/
structure Rows (s : State) : Prop where
  marker : ∀ m, s.store.get .nextSeq = some (.num m) → m ≤ s.writer.nextSeq
  stored : ∀ k q, k.seq? = some q → s.store.get k ≠ none → s.Kept k q
  held : Held s.Settled s

/-- Every row a claim round reads is durable. -/
def DispatchOk (s : State) (e : Event) : Prop := ∀ d ∈ takes s e, d.seq ≤ s.marks.durable

instance DispatchOk.decidable (s : State) (e : Event) : Decidable (DispatchOk s e) :=
  inferInstanceAs (Decidable (∀ d ∈ takes s e, d.seq ≤ s.marks.durable))

theorem State.Kept.settled {s : State} {k : Key} {q : Nat} (h : s.Kept k q)
    (hq : q ≤ s.marks.durable) : s.Settled q := ⟨h.numbered, hq, h.kept⟩

section

variable {cfg : Config} {s t : State} {q : Nat}

/-- A row that is not durable is one its group, still listed, put. -/
theorem State.Kept.group {k : Key} (h : s.Kept k q) (hs : Sound cfg s) (hq : s.marks.durable < q) :
    ∃ g ∈ s.groups, ∃ b, s.ghost.birth q = some b ∧ s.ghost.birth g.upto = some b ∧ g.Puts k := by
  rcases h.listed with hle | ⟨b, hb, hputs⟩
  · omega
  · rcases hs.seqs.covered hb hq with hu | ⟨u, hu, hub⟩
    · exact absurd ⟨b, hb, hu⟩ h.kept
    · obtain ⟨g, hg, rfl⟩ := List.mem_map.1 hu
      exact ⟨g, hg, b, hb, hub, hputs g hg hub⟩

theorem Rows.reads (hr : Rows s) (hs : Sound cfg s) (hg : GroupsOk s) : Reads s.Settled s where
  member := fun {ord lane seq sink} h hle =>
    (hr.stored (.laneMember ord lane seq sink) seq rfl h).settled hle
  inflight := by
    intro ord seq sink h
    have hkept := hr.stored (.inflight ord seq sink) seq rfl h
    by_cases hle : seq ≤ s.marks.durable
    · exact hkept.settled hle
    · obtain ⟨g, hgmem, b, -, -, hputs⟩ := hkept.group hs (not_le.1 hle)
      exact absurd hputs ((hg g hgmem).unclaimed ord seq sink)

/-! ## What a step keeps -/

variable {e : Event}

/-- The marker stays, or moves to the writer's next seq. -/
theorem nextSeq_step (hs : Sound cfg s) (hg : GroupsOk s) (hr : Rows s)
    (h : step cfg s e = some t) : t.store.get .nextSeq = s.store.get .nextSeq ∨
      t.store.get .nextSeq = some (.num t.writer.nextSeq) := by
  have heffect := step_effect h
  have hundo : ∀ op ∈ unwritten s e, op.key ≠ .nextSeq := by
    intro op hop hk
    unfold unwritten at hop
    split_ifs at hop
    · exact undoOps_marker hop hg.plain (by rw [hk]; rfl)
    · cases hop
  rw [heffect.store, KV.Map.get_untouched _ hundo]
  rcases written_cases hs hr.held (hr.reads hs hg) h with hdeals | ⟨-, n, now, hnum⟩ | ⟨-, hswept⟩
  · refine .inl (KV.Map.get_untouched _ fun op hop hk => ?_)
    have hdealt := hdeals op hop
    unfold Op.Dealt at hdealt
    rwa [hk] at hdealt
  · exact .inr (by rw [hnum.ops.get_nextSeq, hnum.next])
  · refine .inl (KV.Map.get_untouched _ fun op hop hk => ?_)
    rcases hswept op hop with ⟨hf, -⟩ | hf <;> rw [hk] at hf <;> cases hf

theorem numbered_step (hq : Numbered s.store q) (hs : Sound cfg s)
    (hg : GroupsOk s) (hr : Rows s) (h : Node.step cfg s e = some t) : Numbered t.store q := by
  obtain ⟨m, hm, hlt⟩ := hq
  rcases nextSeq_step hs hg hr h with hsame | hnew
  · exact ⟨m, by rw [hsame, hm], hlt⟩
  · have hle := hr.marker m hm
    have hmono : s.writer.nextSeq ≤ t.writer.nextSeq := (hs.protocol h).next_mono
    exact ⟨_, hnew, by omega⟩

theorem State.Settled.step (hq : s.Settled q) (hs : Sound cfg s)
    (hg : GroupsOk s) (hr : Rows s) (h : Node.step cfg s e = some t) : t.Settled q where
  numbered := numbered_step hq.numbered hs hg hr h
  durable := hq.durable.trans (hs.protocol h).durable_mono
  kept := by
    intro hu
    rcases (hs.protocol h).undone_cases hs.seqs hu with hold | hlt
    · exact hq.kept hold
    · exact absurd hlt (not_lt.2 hq.durable)

/-- A group whose batch is older than the next one keeps its birth, and no new group shares it. -/
theorem old_group (hs : Sound cfg s) (h : Node.step cfg s e = some t) {g : Group}
    {b : GroupCommit.Birth} (hmem : g ∈ t.groups) (hb : t.ghost.birth g.upto = some b)
    (hlt : b.index < s.ghost.wal) : g ∈ s.groups ∧ s.ghost.birth g.upto = some b := by
  rcases step_groups h hmem with hold | hnew
  · obtain ⟨b', hb', -⟩ := hs.seqs.live_last g.upto (List.mem_map_of_mem hold)
    have hmono := hs.birth_mono h hb'
    rw [hb] at hmono
    exact ⟨hold, some.inj hmono ▸ hb'⟩
  · obtain ⟨cx, prev, hphase, rfl, hbirth⟩ := birth_of_newGroup h hnew
    have hok := hs.phase.ok
    rw [hphase] at hok
    have hpos := hok.1.fresh_pos
    rw [hbirth, show s.born cx.checked.fresh.length cx.now _ = some ⟨s.ghost.wal, cx.now⟩ from
      if_pos ⟨by dsimp only; omega, by dsimp only; omega⟩] at hb
    cases hb
    exact absurd hlt (lt_irrefl _)

/-- A row that was stored before the step and is not durable: the step was no fence, which would
    have deleted it. -/
theorem Rows.stored_old (hr : Rows s) (hs : Sound cfg s) (hg : GroupsOk s)
    (h : Node.step cfg s e = some t) {k : Key} (hk : k.seq? = some q)
    (hold : s.store.get k ≠ none) (hnew : t.store.get k ≠ none) : t.Kept k q := by
  have hkept := hr.stored k q hk hold
  have hfamily := Key.seq?_eq_some.1 hk
  by_cases hle : q ≤ s.marks.durable
  · have hsettled := (hkept.settled hle).step hs hg hr h
    exact { hsettled with listed := .inl hsettled.durable }
  obtain ⟨g, hgmem, b, hb, hub, hputs⟩ := hkept.group hs (not_le.1 hle)
  cases he : e.fences with
  | true =>
    -- The group is above the durable mark, as its hook is, so the fence deletes the row.
    obtain ⟨hidle, -, -, -⟩ := fence_effect he h
    have hunsynced : g ∈ s.writer.unsynced := by
      simpa [State.groups, hidle, Phase.group] using hgmem
    obtain ⟨b', hb', hlast⟩ := hs.seqs.live_last g.upto (List.mem_map_of_mem hgmem)
    have hupto : s.marks.durable < g.upto :=
      lt_of_lt_of_le (not_le.1 hle) (hlast q (hb.trans (hub.symm.trans hb')))
    refine absurd (fence_deletes hg he h (hs.mem_unsyncedAbove hunsynced hupto) hputs ?_ ?_) hnew
    all_goals
      rw [hfamily]
      simp
  | false =>
    refine ⟨numbered_step hkept.numbered hs hg hr h, ?_, .inr ⟨b, hs.birth_mono h hb, ?_⟩⟩
    · rintro ⟨b', hb', hu⟩
      rw [hs.birth_mono h hb] at hb'
      rw [(step_effect h).undone he] at hu
      exact hkept.kept ⟨b, hb, some.inj hb' ▸ hu⟩
    · intro g' hmem' hb'
      obtain ⟨hmem, hbirth⟩ := old_group hs h hmem' hb' (hs.seqs.birth_lt hb).2
      rcases hkept.listed with hle' | ⟨b'', hb'', hall⟩
      · exact absurd hle' hle
      · obtain rfl : b'' = b := some.inj (hb''.symm.trans hb)
        exact hall g' hmem hbirth

/-- A row the step created. -/
theorem Rows.stored_new (hr : Rows s) (hs : Sound cfg s) (hg : GroupsOk s)
    (h : Node.step cfg s e = some t) {op : Op} (hop : op ∈ written s e) (hc : op.creates = true)
    (hq : op.key.seq? = some q) : t.Kept op.key q := by
  rcases written_cases hs hr.held (hr.reads hs hg) h with hdeals | ⟨-, n, now, hnum⟩ | ⟨-, hswept⟩
  · have hsettled := ((hdeals op hop).of_seq hc hq).step hs hg hr h
    exact { hsettled with listed := .inl hsettled.durable }
  · have hrange := hnum.ops.seqs op hop q hq
    have hbirth : t.ghost.birth q = some ⟨s.ghost.wal, now⟩ := by
      rw [hnum.birth]
      exact if_pos hrange
    have hfence : e.fences = false := by
      -- A fence gives no births, and the hook had none before.
      by_contra he
      obtain ⟨-, hsame, -, -⟩ := fence_effect (by simpa using he) h
      rw [hsame] at hbirth
      exact absurd (hs.seqs.birth_lt hbirth).1 (not_lt.2 hrange.1)
    refine ⟨⟨_, ?_, hrange.2⟩, ?_, ?_⟩
    · rw [(step_effect h).store, hnum.undo, KV.Map.write_nil, hnum.ops.get_nextSeq]
    · rintro ⟨b, hb, hu⟩
      rw [hbirth] at hb
      cases hb
      rw [(step_effect h).undone hfence] at hu
      exact absurd (hs.seqs.undone_lt _ hu) (lt_irrefl _)
    · rcases hnum.covered with hle | ⟨g, hnew, hputs⟩
      · exact .inl (by omega)
      refine .inr ⟨_, hbirth, fun g' hmem hb => ?_⟩
      rcases step_groups h hmem with hold | hnew'
      · obtain ⟨b', hb', -⟩ := hs.seqs.live_last g'.upto (List.mem_map_of_mem hold)
        have hmono := hs.birth_mono h hb'
        rw [hb] at hmono
        cases hmono
        exact absurd (hs.seqs.birth_lt hb').2 (lt_irrefl _)
      · rw [hnew] at hnew'
        exact some.inj hnew' ▸ hputs op hop hc q hq
  · have hk := Key.seq?_eq_some.1 hq
    rcases hswept op hop with ⟨hf, -⟩ | hf <;> rw [hk] at hf <;> cases hf

theorem Rows.step (hr : Rows s) (hs : Sound cfg s) (hg : GroupsOk s)
    (hd : DispatchOk s e) (h : Node.step cfg s e = some t) : Rows t := by
  have hmono : ∀ q, s.Settled q → t.Settled q := fun q hq => hq.step hs hg hr h
  refine ⟨?_, ?_, (hr.held.step (hr.reads hs hg) (fun d hmem => ?_) h).mono hmono⟩
  · intro m hm
    rcases nextSeq_step hs hg hr h with hsame | hnew
    · rw [hsame] at hm
      exact (hr.marker m hm).trans (hs.protocol h).next_mono
    · rw [hnew] at hm
      cases hm
      exact le_rfl
  · intro k q hk hstored
    have hfamily := Key.seq?_eq_some.1 hk
    have hwritten : (s.store.write (written s e)).get k ≠ none := by
      rw [(step_effect h).store] at hstored
      rcases KV.Map.get_write_ne_none hstored with hw | ⟨op, hop, hc, rfl⟩
      · exact hw
      · rw [unwritten_creates hg hop hc] at hfamily
        cases hfamily
    rcases KV.Map.get_write_ne_none hwritten with hold | ⟨op, hop, hc, rfl⟩
    · exact hr.stored_old hs hg h hk hold hstored
    · exact hr.stored_new hs hg h hop hc hk
  · refine (hr.stored (.due d.ord d.time d.seq d.sink) d.seq rfl ?_).settled (hd d hmem)
    rw [mem_takes hmem]
    simp

variable {store : Store}

theorem bootSeq_ge {m : Nat} (h : store.get .nextSeq = some (.num m)) : m ≤ bootSeq store := by
  unfold bootSeq
  rw [h]
  exact le_max_left _ _

theorem Rows.boot (hstore : SeqMarked store) (closed : List String) (wall mono : Ms) :
    Rows (boot store closed wall mono) where
  marker := fun m hm => bootSeq_ge hm
  stored := by
    intro k q hk hget
    have hnum := hstore k q hk hget
    refine ⟨hnum, ?_, .inl ?_⟩
    · rintro ⟨b, hb, -⟩
      cases hb
    · obtain ⟨m, hm, hlt⟩ := hnum
      have hle := bootSeq_ge hm
      show q ≤ bootSeq store - 1
      omega
  held := Held.boot store closed wall mono

/-- What every step keeps while dispatch reads durable rows only. -/
structure Orderly (cfg : Config) (s : State) : Prop where
  sound : Sound cfg s
  groups : GroupsOk s
  rows : Rows s

theorem Orderly.step (h : Orderly cfg s) (hd : DispatchOk s e)
    (hstep : Node.step cfg s e = some t) : Orderly cfg t :=
  ⟨h.sound.step hstep, h.groups.step h.sound hstep, h.rows.step h.sound h.groups hd hstep⟩

theorem Orderly.boot (hstore : SeqMarked store) (closed : List String)
    (wall mono : Ms) : Orderly cfg (boot store closed wall mono) :=
  ⟨Sound.boot store closed wall mono, List.forall_mem_nil _, Rows.boot hstore closed wall mono⟩

end

end Node

end Ankusa
