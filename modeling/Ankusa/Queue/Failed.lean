import Ankusa.Queue.Rows
import Ankusa.Queue.Memory

set_option autoImplicit false

/-! # What a failed call leaves

A call the syncer answered with an error must leave nothing once the fence has been written: no row
of its hooks, no dedupe entry, and nothing dispatch has seen. The protocol's `FailInv` says that its
hooks are undone as soon as no fence is outstanding, provided the steps keep what the fence relies
on (`FenceOk`); `Rows` says that no row of an undone hook is stored, and `DedupeRows` the same of
the dedupe entries, which carry no seq.

The first condition is not met by every run: a fenced syncer that finds a sync request ahead of the
`resume` drains the requests behind it too, and answers with the error calls whose groups were
written after the fence (`drainedRun_keeps_rows`). -/

namespace Ankusa.Node

open Writer List Option Run

/-- The batch that last wrote `k`, a key of the dedupe index. -/
def lastWriter (commits : List Commit) (k : Key) : Option Nat :=
  (commits.find? fun c => c.uKey = k ∨ c.expiryKey = k).map Commit.index

/-- The dedupe entries of undone batches are gone, and a listed group has its own among the
    operations a fence takes back. -/
structure DedupeRows (s : State) : Prop where
  index_lt : ∀ c ∈ s.ghost.commits, c.index < s.ghost.wal
  puts : ∀ g ∈ s.groups, ∀ b, s.ghost.birth g.upto = some b → ∀ c ∈ s.ghost.commits,
    c.index = b.index → g.Puts c.uKey ∧ g.Puts c.expiryKey
  gone : ∀ k i, lastWriter s.ghost.commits k = some i → i ∈ s.ghost.undone → s.store.get k = none

section

variable {cfg : Config} {s t : State} {e : Event} {c : Commit}

/-- A recorded dedupe entry is of the batch that is being written. -/
theorem landed_index (hstep : step cfg s e = some t) (h : c ∈ landed s e) :
    c.index = s.ghost.wal ∧ s.ghost.wal < t.ghost.wal := by
  obtain ⟨rfl, hc⟩ := mem_landed h
  refine ⟨(mem_commitsOf hc).2.1, ?_⟩
  simp only [step, write] at hstep
  split at hstep
  · cases hstep
    exact Nat.lt_succ_self _
  · split_ifs at hstep
    cases hstep
    exact Nat.lt_succ_self _
  · cases hstep
    exact Nat.lt_succ_self _
  · cases hstep
    exact Nat.lt_succ_self _
  · cases hstep

/-- What an event creates in the dedupe index is recorded. -/
theorem written_dedupe (h : Orderly cfg s) (hstep : step cfg s e = some t) {op : Op}
    (hop : op ∈ written s e) (hc : op.creates = true) (hf : op.key.family = .dedupe) :
    ∃ c ∈ landed s e, c.uKey = op.key ∨ c.expiryKey = op.key := by
  rcases written_cases h.sound h.rows.held (h.rows.reads h.sound h.groups) hstep with hdeals |
    ⟨-, n, now, hnum⟩ | ⟨-, hswept⟩
  · have hdealt := hdeals op hop
    unfold Op.Dealt at hdealt
    rw [hf] at hdealt
    exact hdealt.elim
  · exact hnum.dedupe op hop hc hf
  · rcases hswept op hop with ⟨-, hdelete⟩ | hshared
    · rw [hc] at hdelete
      cases hdelete
    · rw [hf] at hshared
      cases hshared

theorem landed_puts (h : Orderly cfg s) {g : Group} (hg : newGroup s e = some g)
    (hc : c ∈ landed s e) : g.Puts c.uKey ∧ g.Puts c.expiryKey := by
  obtain ⟨rfl, hmem⟩ := mem_landed hc
  have hok := h.sound.phase.ok
  simp only [newGroup] at hg
  split at hg
  next cx prev hphase =>
    rw [hphase] at hok
    rw [hphase] at hmem
    cases hg
    have hundo : cx.checked.dedupeOps ∈ cx.undo := by
      rw [hok.1.undo]
      exact mem_cons_self
    exact ⟨⟨_, hundo, _, (mem_commitsOf hmem).1⟩, ⟨_, hundo, _, paired_expiry hok.1.paired hmem⟩⟩
  · cases hg

variable {k : Key} {i : Nat}

/-- The last writer of a key, when entries are added to the record. -/
theorem lastWriter_append {new old : List Commit} (h : lastWriter (new ++ old) k = some i) :
    (∃ c ∈ new, c.index = i) ∨
      (lastWriter old k = some i ∧ ∀ c ∈ new, ¬ (c.uKey = k ∨ c.expiryKey = k)) := by
  unfold lastWriter at h
  rw [find?_append] at h
  cases hnew : new.find? fun c => decide (c.uKey = k ∨ c.expiryKey = k) with
  | some c =>
    rw [hnew] at h
    exact .inl ⟨c, mem_of_find?_eq_some hnew, some.inj h⟩
  | none =>
    rw [hnew] at h
    refine .inr ⟨h, fun c hc hk => ?_⟩
    have := find?_eq_none.1 hnew c hc
    exact this (decide_eq_true hk)

theorem lastWriter_spec {commits : List Commit} (h : lastWriter commits k = some i) :
    ∃ c ∈ commits, c.index = i ∧ (c.uKey = k ∨ c.expiryKey = k) := by
  obtain ⟨c, hc, rfl⟩ := map_eq_some_iff.1 h
  have hk := find?_some hc
  exact ⟨c, mem_of_find?_eq_some hc, rfl, by simpa using hk⟩

theorem DedupeRows.gone_step (hr : DedupeRows s) (h : Orderly cfg s) (hstep : step cfg s e = some t)
    (hlast : lastWriter t.ghost.commits k = some i) (hu : i ∈ t.ghost.undone) :
    t.store.get k = none := by
  rw [(step_effect hstep).commits] at hlast
  rcases lastWriter_append hlast with ⟨c, hc, rfl⟩ | ⟨hlast, hothers⟩
  · -- A batch that is just being written has not been undone.
    obtain ⟨rfl, -⟩ := mem_landed hc
    rw [(step_effect hstep).undone rfl, (landed_index hstep hc).1] at hu
    exact absurd (h.sound.seqs.undone_lt _ hu) (lt_irrefl _)
  obtain ⟨c, hc, hi, hk⟩ := lastWriter_spec hlast
  have hfamily : k.family = .dedupe := by
    rcases hk with rfl | rfl <;> rfl
  by_cases hu' : i ∈ s.ghost.undone
  · by_contra hne
    have habsent := hr.gone k i hlast hu'
    rw [← ne_eq, (step_effect hstep).store] at hne
    rcases KV.Map.get_write_ne_none hne with hne | ⟨op, hop, hcr, rfl⟩
    · rcases KV.Map.get_write_ne_none hne with hne | ⟨op, hop, hcr, rfl⟩
      · exact hne habsent
      · obtain ⟨c', hc', hk'⟩ := written_dedupe h hstep hop hcr hfamily
        exact hothers c' hc' hk'
    · rw [unwritten_creates h.groups hop hcr] at hfamily
      cases hfamily
  · -- The step is the fence that deletes the batch, and the entry is one of its operations.
    have hfence : e.fences = true := by
      by_contra he
      rw [(step_effect hstep).undone (by simpa using he)] at hu
      exact hu' hu
    obtain ⟨-, -, -, hundone⟩ := fence_effect hfence hstep
    rw [hundone] at hu
    rcases mem_append.1 hu with hu | hu
    · obtain ⟨g, hg, hidx⟩ := mem_filterMap.1 hu
      obtain ⟨b, hb, hidx⟩ := map_eq_some_iff.1 hidx
      have hlisted : g ∈ s.groups := mem_append_right _ (unsyncedAbove_mem hg).1
      have hputs := hr.puts g hlisted b hb c hc (hi.trans hidx.symm)
      refine fence_deletes h.groups hfence hstep hg ?_ (by rw [hfamily]; nofun)
        (by rw [hfamily]; nofun)
      rcases hk with rfl | rfl
      · exact hputs.1
      · exact hputs.2
    · exact absurd hu hu'

theorem DedupeRows.step (hr : DedupeRows s) (h : Orderly cfg s)
    (hstep : Node.step cfg s e = some t) : DedupeRows t := by
  have hcommits := (step_effect hstep).commits
  refine ⟨?_, ?_, fun k i => hr.gone_step h hstep⟩
  · intro c hc
    rw [hcommits] at hc
    rcases mem_append.1 hc with hc | hc
    · obtain ⟨hi, hlt⟩ := landed_index hstep hc
      rw [hi]
      exact hlt
    · exact lt_of_lt_of_le (hr.index_lt c hc) (h.sound.protocol hstep).wal_mono
  · intro g hg b hb c hc hi
    rw [hcommits] at hc
    rcases mem_append.1 hc with hc | hc
    · -- A new entry is of the newest batch, so the group is the one just written.
      rcases step_groups hstep hg with hold | hnew
      · obtain ⟨b', hb', -⟩ := h.sound.seqs.live_last g.upto (mem_map_of_mem hold)
        have hmono := h.sound.birth_mono hstep hb'
        rw [hb] at hmono
        cases hmono
        have hlt := (h.sound.seqs.birth_lt hb').2
        rw [← hi, (landed_index hstep hc).1] at hlt
        exact absurd hlt (lt_irrefl _)
      · exact landed_puts h hnew hc
    · have hlt : b.index < s.ghost.wal := hi ▸ hr.index_lt c hc
      obtain ⟨hold, hb'⟩ := old_group h.sound hstep hg hb hlt
      exact hr.puts g hold b hb' c hc hi

theorem DedupeRows.boot (store : Store) (closed : List String) (wall mono : Ms) :
    DedupeRows (boot store closed wall mono) :=
  ⟨forall_mem_nil _, forall_mem_nil _, nofun⟩

/-! ## Every failed call -/

/-- What the fence and dispatch rely on in one step. -/
def FailOk (s : State) (e : Event) : Prop := FenceOk s e ∧ DispatchOk s e

instance FailOk.decidable (s : State) (e : Event) : Decidable (FailOk s e) :=
  inferInstanceAs (Decidable (_ ∧ _))

/-- What every step under `FailOk` keeps. -/
structure Fenced (cfg : Config) (s : State) : Prop extends Orderly cfg s where
  dedupe : DedupeRows s
  failed : GroupCommit.FailInv s.proto

theorem Fenced.step (h : Fenced cfg s) (hok : FailOk s e) (hstep : Node.step cfg s e = some t) :
    Fenced cfg t := by
  have hmoves : Moves True False s t ∧ t.PhaseOk cfg :=
    step_proto h.sound (fun _ => hok.1) False.elim hstep
  have hproto := hmoves.1.protocol h.sound.disk.synced_le
  exact ⟨h.toOrderly.step hok.2 hstep, h.dedupe.step h.toOrderly hstep,
    h.failed.step h.sound.seqs h.sound.fence h.sound.acks hproto⟩

theorem Fenced.boot {store : Store} (hstore : SeqMarked store) (closed : List String)
    (wall mono : Ms) : Fenced cfg (boot store closed wall mono) :=
  ⟨Orderly.boot hstore closed wall mono, DedupeRows.boot store closed wall mono, (forall_mem_nil _)⟩

/-- **A failed call leaves nothing.** Take any run whose steps keep what the fence and dispatch rely
    on, and any state of it in which no fence is outstanding. A hook of a call that was answered
    with the error of an fsync has, from that state on, no row in the store, its batch's dedupe
    entries are gone unless a later batch wrote the same key, and dispatch never claimed one of its
    rows. -/
theorem failed_call_leaves_nothing {store : Store} (hstore : SeqMarked store) {closed : List String}
    {wall mono : Ms} {es fs : List Event}
    (hok : Run.Along (step cfg) FailOk (boot store closed wall mono) (es ++ fs))
    (hs : Run.exec (step cfg) (boot store closed wall mono) es = some s)
    (ht : Run.exec (step cfg) s fs = some t)
    (hfence : s.writer.syncFailed = false ∧ s.writer.fenced = false)
    {e : Entry} (he : e ∈ s.ghost.failed) {q : Nat} (hq : q ∈ e.reply.seqs) :
    (∀ k : Key, k.seq? = some q → t.store.get k = none) ∧
      (∀ k b, t.ghost.birth q = some b → lastWriter t.ghost.commits k = some b.index →
        t.store.get k = none) ∧
      ∀ d ∈ t.ghost.claimed, d.seq ≠ q := by
  obtain ⟨hes, hfs⟩ := hok.of_append hs
  have hsfenced : Fenced cfg s := invariant_along
    (fun _ _ _ hi hp hstep => hi.step hp hstep) (Fenced.boot hstore closed wall mono) hes hs
  -- With no fence outstanding the hook is undone, and it stays undone.
  have hundone : s.Undone q := by
    refine hsfenced.failed.undone_of_no_alarm (k := e.ticket) ?_ ?_ hq
    · show s.writer.syncFailed.toNat + s.writer.fenced.toNat = 0
      rw [hfence.1, hfence.2]
      rfl
    · have hmem : e.ticket ∈ s.proto.failed := mem_map_of_mem he
      unfold GroupCommit.State.doomed
      split_ifs
      · exact mem_append_right _ hmem
      · exact hmem
  have htfenced : Fenced cfg t ∧ t.Undone q :=
    invariant_along (I := fun t => Fenced cfg t ∧ t.Undone q)
    (fun _ _ _ hi hp hstep => ⟨hi.1.step hp hstep, hi.1.sound.undone_mono hstep hi.2⟩)
    ⟨hsfenced, hundone⟩ hfs ht
  refine ⟨fun k hk => ?_, fun k b hb hlast => ?_, ?_⟩
  · by_contra hne
    exact (htfenced.1.rows.stored k q hk hne).kept htfenced.2
  · obtain ⟨b', hb', hu⟩ := htfenced.2
    obtain rfl := some.inj (hb.symm.trans hb')
    exact htfenced.1.dedupe.gone k _ hlast hu
  · rintro d hd rfl
    exact (htfenced.1.rows.held.claimed d hd).kept htfenced.2

end

theorem seqMarked_empty : SeqMarked ∅ := by
  intro k q _ hget
  exact absurd (KV.Map.get_empty k) hget

/-- A hook whose fsync fails, the fence, and a second delivery of it that is committed. -/
def retriedRun : List Event :=
  groupOf 1 [keyedItem "a" "k"] ++ fsync false 1 ++ [.syncFailed true]

/-- The retry is written and acknowledged. -/
def retriedRest : List Event :=
  [.syncerTake] ++ groupOf 2 [keyedItem "b" "k"] ++ fsync true 1

theorem retriedRun_leaves_nothing : ∃ s t, Run.exec (step plainConfig)
    (boot ∅ [] 10 0) retriedRun = some s ∧ Run.exec (step plainConfig) s retriedRest = some t ∧
    (s.store.get (.dedupe "acme" "github" "k") = none ∧
      t.store.get (.dedupe "acme" "github" "k") = some (.expiry 1010 "b")) ∧
    (∀ k : Key, k.seq? = some 1 → t.store.get k = none) ∧
    (∀ k b, t.ghost.birth 1 = some b → lastWriter t.ghost.commits k = some b.index →
      t.store.get k = none) ∧ ∀ d ∈ t.ghost.claimed, d.seq ≠ 1 := by
  have hrun : ∃ s, exec (step plainConfig) (boot ∅ [] 10 0) retriedRun = some s ∧
      ((s.writer.syncFailed = false ∧ s.writer.fenced = false) ∧
        s.ghost.failed = [⟨1, 10, [(1, 1)], .ok [.committed (keyedItem "a" "k").env 1]⟩] ∧
        s.store.get (.dedupe "acme" "github" "k") = none ∧
        ((exec (step plainConfig) s retriedRest).any fun t =>
          t.store.get (.dedupe "acme" "github" "k") = some (.expiry 1010 "b")) = true) :=
    of_exec (by decide +kernel)
  have hok : Along (step plainConfig) FailOk (boot ∅ [] 10 0) (retriedRun ++ retriedRest) := by
    decide +kernel
  obtain ⟨s, hs, hfence, hfailed, habsent, hrest⟩ := hrun
  obtain ⟨t, ht, hnew⟩ := of_exec hrest
  exact ⟨s, t, hs, ht, ⟨habsent, hnew⟩, failed_call_leaves_nothing seqMarked_empty hok hs ht hfence
    (hfailed ▸ mem_singleton_self _) (mem_singleton_self _)⟩

/-! ## A sync request from behind the fence -/

/-- The fsync of the first group fails while the second one is queued. Before the syncer looks at
    its mailbox again the writer has fenced, and written a third group: the syncer finds the second
    group's request ahead of the `resume`, is still fenced, and drains the third one's too. -/
def drainedRun : List Event :=
  groupOf 1 [plainItem "a"] ++ [.syncerTake] ++ groupOf 2 [plainItem "b"] ++
    [.syncerSync false, .syncerAnswer, .syncerAnswer, .syncFailed true] ++
    groupOf 3 [plainItem "c"] ++
    [.syncerTake, .syncerAnswer, .syncerAnswer, .syncerAnswer, .syncerTake]

/-- The third call is told that it failed, the fence that follows the failure is long written, and
    its rows are in the store, where the next claim round finds them due. -/
theorem drainedRun_keeps_rows : ∃ s, Run.exec (step plainConfig)
    (boot ∅ [] 10 0) drainedRun = some s ∧
    (3, .error .storeUnavailable) ∈ s.ghost.replies ∧ (∃ e ∈ s.ghost.failed, 3 ∈ e.reply.seqs) ∧
    (s.writer.syncFailed = false ∧ s.writer.fenced = false) ∧
    s.store.get (.hook 3) = some (.hook [1, 2, 3]) ∧
    s.store.get (.due 1 10 3 0) = some (.due 3 .firstAttempt) :=
  of_exec (by decide +kernel)

end Ankusa.Node
