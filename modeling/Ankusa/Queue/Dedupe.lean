import Ankusa.Queue.Memory

set_option autoImplicit false

/-! # No key is committed twice

A dedupe entry is live from its batch's write until the wall clock reaches its expiry or a fence
deletes its batch. `Entered` is what holds of every live entry: it is stored, the writer's window
knows it, no call carries a read that missed it without having begun before it, and no batch on its
way to the store puts its key. So the check of a group answers every item of its key with the
entry's hook.

The writer uses a call's reads when they began at or after the time since which its window remembers
everything. That lets one case through: the clock counts milliseconds, a generation of the window
may hold a key that was written in the very millisecond the generation was closed, and a read of
that millisecond may have missed it (`rotatedRun_commits_twice`). `DedupeOk` asks that no call's
read is of that millisecond. -/

namespace Ankusa.Node

open Writer List Run Option

/-- The value under a live entry's key. -/
def Commit.value (c : Commit) : Val := .expiry c.expires c.id

/-- The entry was written, its batch was not deleted, and the wall clock has never shown its
    expiry. -/
structure State.Live (s : State) (c : Commit) : Prop where
  mem : c ∈ s.ghost.commits
  kept : c.index ∉ s.ghost.undone
  unexpired : s.ghost.wallMax < c.expires

/-- What holds of a live entry. -/
structure Entered (s : State) (c : Commit) : Prop where
  stored : s.store.get c.uKey = some c.value
  known : s.writer.window.Knows c.uKey c.value c.wrote
  read : ∀ call ∈ s.calls, ∀ r, (c.uKey, r) ∈ call.prefetch →
    r = some c.value ∨ call.readAt ≤ c.wrote
  free : c.uKey ∉ uKeys s.writer.phase.dedupeOps

/-- The calls of a group whose reads the check uses. -/
def Phase.readers : Phase → List Call
  | .stamped calls _ [] => calls
  | _ => []

/-- The writer checks a group. -/
def Event.checks : Event → Bool
  | .check _ => true
  | _ => false

/-- No read of a group that is checked began in the millisecond since which the window remembers. -/
def DedupeOk (s : State) (e : Event) : Prop :=
  e.checks = true → ∀ call ∈ s.writer.phase.readers, call.readAt ≠ s.writer.recentSince

instance DedupeOk.decidable (s : State) (e : Event) : Decidable (DedupeOk s e) :=
  inferInstanceAs (Decidable (_ → _))

/-- Everything the dedupe check relies on, in every state of a run. -/
structure Deduped (cfg : Config) (s : State) : Prop where
  sound : Sound cfg s
  groups : GroupsOk s
  held : Held (fun _ => True) s
  order : GroupCommit.OrderInv s.proto
  clocks : Clocks s
  sealed : ∀ calls now extra, s.writer.phase = .stamped calls now extra → extra ≠ [] →
    ∀ call ∈ calls, call.prefetch = []
  entered : ∀ c, s.Live c → Entered s c
  /-- No entry was written while an older one of its key was live. -/
  unique : s.ghost.commits.Pairwise fun newer older => older.index ≤ newer.index ∧
    (s.Live older → newer.uKey ≠ older.uKey)
  born : ∀ c ∈ s.ghost.commits, ∃ q b, s.ghost.birth q = some b ∧ b.index = c.index
  /-- The keys a fence would delete with a group are entries of the group's batch. -/
  owned : ∀ g ∈ s.groups, ∀ tenant source key, g.Puts (.dedupe tenant source key) →
    ∃ b, s.ghost.birth g.upto = some b ∧
      ∃ c ∈ s.ghost.commits, c.uKey = .dedupe tenant source key ∧ c.index = b.index

section

variable {cfg : Config} {s t : State} {e : Event}

/-! ## Live entries -/

theorem reads_true (s : State) : Reads (fun _ => True) s := ⟨fun _ _ => trivial, fun _ => trivial⟩

theorem undone_subset (h : step cfg s e = some t) {i : Nat} (hi : i ∈ s.ghost.undone) :
    i ∈ t.ghost.undone := by
  cases he : e.fences with
  | false =>
    rw [(step_effect h).undone he]
    exact hi
  | true =>
    obtain ⟨-, -, -, hundone⟩ := fence_effect he h
    rw [hundone]
    exact mem_append_right _ hi

variable {c : Commit}

theorem State.Live.before (h : step cfg s e = some t) (hmem : c ∈ s.ghost.commits)
    (hlive : t.Live c) : s.Live c :=
  ⟨hmem, fun hi => hlive.kept (undone_subset h hi),
    lt_of_le_of_lt (step_memory h).wallMax hlive.unexpired⟩

/-! ## The check -/

variable {calls : List Call}

theorem mem_mergePrefetch {since : Ms} {p : Key × Option Val}
    (h : p ∈ mergePrefetch calls since) : ∃ c ∈ calls, since ≤ c.readAt ∧ p ∈ c.prefetch := by
  obtain ⟨c, hc, hp⟩ := mem_flatMap.1 h
  rw [mem_reverse, (perm_insertionSort _ _).mem_iff] at hc
  obtain ⟨hmem, hle⟩ := mem_filter.1 hc
  exact ⟨c, hmem, by simpa using hle, hp⟩

/-- The stored keys as the check of a group sees them. -/
def seenKeys (s : State) (calls : List Call) (extra : List Op) : Key → Option Val :=
  storedFor s.writer.recent (if extra = [] then mergePrefetch calls s.writer.recentSince
    else calls.flatMap Call.prefetch) s.store

theorem storedFor_eq (w : WriterState) (prefetch : List (Key × Option Val)) (store : Store)
    (k : Key) : storedFor w.recent prefetch store k = w.window.answer prefetch store k := by
  have hget : w.recent.get k = w.window.get k := by
    unfold Recent.get KV.Window.get WriterState.window
    cases w.recent.cur.get k <;> rfl
  unfold storedFor KV.Window.answer
  rw [hget]
  cases w.window.get k with
  | some => rfl
  | none => cases prefetch.lookup k <;> rfl

variable {now : Ms} {extra : List Op} {reads : Bool} {tenant source key : String}
  {store : Store} {k : Key}

/-- The check of a group finds every live entry. -/
theorem Deduped.holds (h : Deduped cfg s) (hok : DedupeOk s (.check reads))
    (hphase : s.writer.phase = .stamped calls now extra) (hlive : s.Live c) :
    Holds (seenKeys s calls extra) now c.uKey c.id := by
  have hentered := h.entered c hlive
  refine ⟨c.expires, ?_, lt_of_le_of_lt (h.clocks.clock now (by rw [hphase]; rfl)) hlive.unexpired⟩
  rw [seenKeys, storedFor_eq]
  refine hentered.known.answer_eq hentered.stored fun r hr => ?_
  by_cases hextra : extra = []
  · rw [if_pos hextra] at hr
    obtain ⟨call, hcall, hsince, hmem⟩ := mem_mergePrefetch hr
    have hreader : call ∈ s.writer.phase.readers := by
      rw [hphase, hextra]
      exact hcall
    have hin : call ∈ s.calls := mem_append_right _ (by rw [hphase]; exact hcall)
    -- A read that missed the entry began before it, and the window remembers what is later than
    -- `since`.
    rcases hentered.read call hin r hmem with heq | hle
    · exact .inl heq
    · exact .inr (lt_of_lt_of_le (lt_of_le_of_ne hsince (hok rfl call hreader).symm) hle)
  · rw [if_neg hextra] at hr
    obtain ⟨call, hcall, hmem⟩ := mem_flatMap.1 hr
    rw [h.sealed calls now extra hphase hextra call hcall] at hmem
    cases hmem

/-! ## The entries of a batch -/

theorem map_uKey_commitsOf (ops : List Op) (index : Nat) (mono : Ms) :
    (commitsOf ops index mono).map Commit.uKey = uKeys ops := by
  unfold commitsOf uKeys
  rw [map_filterMap]
  congr 1
  funext op
  cases op with
  | put k v => cases k <;> cases v <;> rfl
  | delete | merge => rfl

/-- What the dedupe check of a waiting batch has decided. -/
theorem Sound.verdicts (hs : Sound cfg s) : ∃ now, (uKeys s.writer.phase.dedupeOps).Nodup ∧
    ∀ op ∈ s.writer.phase.dedupeOps, IndexOp now s.writer.phase.dedupeOps op ∨
      ∃ ord field d, op = .merge (.counter ord field) d := by
  have hok := hs.phase.ok
  have hbuilt : ∀ {cx : Cx}, cx.Built cfg s.writer.nextSeq → (uKeys cx.checked.dedupeOps).Nodup ∧
      ∀ op ∈ cx.checked.dedupeOps, IndexOp cx.now cx.checked.dedupeOps op ∨
        ∃ ord field d, op = .merge (.counter ord field) d := by
    intro cx hcx
    obtain ⟨stored, usage, enforce, items, heq⟩ := hcx.checked
    have hverdicts : Verdicts stored cx.now items cx.checked :=
      heq ▸ dedupeCheck_verdicts usage items
    exact ⟨hverdicts.nodup, hverdicts.index⟩
  cases hphase : s.writer.phase with
  | built cx | applied cx =>
    rw [hphase] at hok
    exact ⟨cx.now, hbuilt hok.1⟩
  | _ => exact ⟨0, .nil, forall_mem_nil _⟩

variable {op : Op}

theorem Sound.mem_uKeys (hs : Sound cfg s) (hop : op ∈ s.writer.phase.dedupeOps)
    (hkey : op.key = .dedupe tenant source key) : op.key ∈ uKeys s.writer.phase.dedupeOps := by
  obtain ⟨now, -, hindex⟩ := hs.verdicts
  rcases hindex op hop with hindex | ⟨ord, field, d, rfl⟩
  · exact hindex.mem_uKeys hop hkey
  · cases hkey

/-- A waiting batch does nothing else to a key it puts. -/
theorem Sound.put_unique (hs : Sound cfg s) {index : Nat} {mono : Ms}
    (hc : c ∈ commitsOf s.writer.phase.dedupeOps index mono)
    (hop : op ∈ s.writer.phase.dedupeOps) (hkey : op.key = c.uKey) : op = .put c.uKey c.value := by
  obtain ⟨now, hnodup, hindex⟩ := hs.verdicts
  obtain ⟨time, id, heq⟩ : ∃ time id, op = .put c.uKey (.expiry time id) := by
    rcases hindex op hop with (⟨env, key, ttl, hputs, -⟩ | ⟨time, env, key, rfl⟩) |
      ⟨ord, field, d, rfl⟩
    · rcases mem_pair.1 hputs with rfl | rfl
      · exact ⟨_, _, by rw [← hkey]; rfl⟩
      · cases hkey
    · cases hkey
    · cases hkey
  -- The other entry of the key is the same one.
  have hother : (⟨c.tenant, c.source, c.key, time, id, index, mono⟩ : Commit) ∈
      commitsOf s.writer.phase.dedupeOps index mono :=
    mem_filterMap.2 ⟨op, hop, by rw [heq]; rfl⟩
  rw [← map_uKey_commitsOf _ index mono] at hnodup
  have hsame := inj_on_of_nodup_map hnodup hother hc rfl
  rw [heq, ← hsame]
  rfl

/-- What the write of a batch does to the dedupe index comes from its dedupe check. -/
theorem Sound.written_mem (hs : Sound cfg s) (hop : op ∈ written s (.write true))
    (hf : op.key.family = .dedupe) : op ∈ s.writer.phase.dedupeOps := by
  have hok := hs.phase.ok
  cases hphase : s.writer.phase with
  | applied | built =>
    rw [hphase] at hok
    simp only [written, hphase] at hop
    exact hok.1.dedupe_mem hop hf
  | extraOnly =>
    rw [hphase] at hok
    simp only [written, hphase] at hop
    rw [within_extra hok.2 op hop] at hf
    cases hf
  | redriving =>
    rw [hphase] at hok
    obtain ⟨-, ⟨store, closed, cached, nextOrd, max, tenants, rfl⟩, entries, extra, rfl,
        hextra, rfl⟩ := hok
    simp only [written, hphase] at hop
    rcases mem_redriveOps (within_admitOps _ _ _ _ _ _) (within_extra hextra) hop with
      rfl | hk | ⟨q, hk, -⟩ | hk | hk
    · cases hf
    all_goals
      rw [hf] at hk
      cases hk
  | _ =>
    simp only [written, hphase] at hop
    cases hop

/-! ## The sweep and the fence -/

theorem swept_expiry {x : Expired} (h : (match store.get (.dedupe x.tenant x.source x.key) with
      | some (.expiry time _) => decide (time = x.time)
      | _ => false) = true) :
    ∃ id, store.get (.dedupe x.tenant x.source x.key) = some (.expiry x.time id) := by
  split at h
  next id hget =>
    rw [hget, of_decide_eq_true h]
    exact ⟨id, rfl⟩
  · cases h

/-- The sweep deletes a key only while it holds an expiry the sweep has seen. -/
theorem mem_expireOps {entries : List Expired}
    (h : op ∈ (expireOps store entries).1 ∨ op ∈ (expireOps store entries).2)
    (hkey : op.key = .dedupe tenant source key) :
    ∃ x ∈ entries, ∃ id, store.get op.key = some (.expiry x.time id) := by
  rcases h with h | h
  · have hmem := Deliveries.mem_of_mem_coalesce h (by rw [hkey]; nofun)
    rcases mem_append.1 hmem with hmem | hmem
    · rcases mem_append.1 hmem with hmem | hmem
      · obtain ⟨x, hx, hop⟩ := mem_flatMap.1 hmem
        split_ifs at hop with hlive
        · rcases mem_pair.1 hop with rfl | rfl
          · cases hkey
          · exact ⟨x, hx, swept_expiry (mem_filter.1 hlive).2⟩
        · rw [mem_singleton] at hop
          subst hop
          cases hkey
      · obtain ⟨ord, field, d, rfl⟩ := Counters.mem_ops hmem
        cases hkey
    · obtain ⟨p, -, rfl⟩ := Counters.mem_merges hmem
      cases hkey
  · obtain ⟨x, hx, rfl⟩ := mem_map.1 h
    obtain ⟨hmem, hlive⟩ := mem_filter.1 hx
    exact ⟨x, hmem, swept_expiry hlive⟩

theorem Deduped.unswept (h : Deduped cfg s) (hlive : s.Live c)
    (hop : op ∈ (expireOps s.store s.sweep).1 ∨ op ∈ (expireOps s.store s.sweep).2) :
    op.key ≠ c.uKey := by
  intro hkey
  obtain ⟨x, hx, id, hget⟩ := mem_expireOps hop hkey
  rw [hkey, (h.entered c hlive).stored] at hget
  have hexpires : c.expires = x.time := by
    rw [Commit.value, some.injEq, Val.expiry.injEq] at hget
    exact hget.1
  exact absurd (hexpires ▸ h.clocks.sweep x hx) (not_le.2 hlive.unexpired)

/-- Of two entries one is the newer. -/
theorem Deduped.earlier (h : Deduped cfg s) {a b : Commit} (ha : a ∈ s.ghost.commits)
    (hb : b ∈ s.ghost.commits) (hne : a ≠ b) :
    (b.index ≤ a.index ∧ (s.Live b → a.uKey ≠ b.uKey)) ∨
      (a.index ≤ b.index ∧ (s.Live a → b.uKey ≠ a.uKey)) := by
  let R : Commit → Commit → Prop := fun a b =>
    (b.index ≤ a.index ∧ (s.Live b → a.uKey ≠ b.uKey)) ∨
      (a.index ≤ b.index ∧ (s.Live a → b.uKey ≠ a.uKey))
  have hsymm : Std.Symm R := ⟨fun _ _ => Or.symm⟩
  have hpairs : s.ghost.commits.Pairwise R := h.unique.imp .inl
  exact hpairs.forall ha hb hne

/-- A fence deletes a key only with the entry that holds it: an older entry of the key has expired
    or is deleted too, and the batches above an undone one are undone with it. -/
theorem Deduped.unfenced (h : Deduped cfg s) (hstep : step cfg s e = some t)
    (hlive : t.Live c) (hmem : c ∈ s.ghost.commits) (hop : op ∈ unwritten s e) :
    op.key ≠ c.uKey := by
  intro hkey
  unfold unwritten at hop
  split_ifs at hop with he
  swap
  · cases hop
  obtain ⟨hidle, -, -, hundone⟩ := fence_effect he hstep
  have hvictim : ∀ {g : Group} {b : GroupCommit.Birth},
      g ∈ unsyncedAbove s.writer.unsynced s.marks.durable → s.ghost.birth g.upto = some b →
      b.index ∈ t.ghost.undone := by
    intro g b hg hb
    rw [hundone]
    exact mem_append_left _ (mem_filterMap.2 ⟨g, hg, by rw [hb]; rfl⟩)
  obtain ⟨-, -, g, hg, hputs⟩ := undoOps_deletes hop h.groups.plain (by rw [hkey]; nofun)
  rw [hkey] at hputs
  obtain ⟨b, hb, c', hc', hsame, hindex⟩ :=
    h.owned g (mem_append_right _ (unsyncedAbove_mem hg).1) _ _ _ hputs
  have hgone : c'.index ∈ t.ghost.undone := hindex ▸ hvictim hg hb
  by_cases heq : c' = c
  · exact hlive.kept (heq ▸ hgone)
  -- The entry the group put is another one of the key, so it is the older one.
  have hle : c'.index ≤ c.index := by
    rcases h.earlier hc' hmem heq with ⟨-, hne⟩ | ⟨hle, -⟩
    · exact absurd hsame (hne (hlive.before hstep hmem))
    · exact hle
  rcases hle.eq_or_lt with hsame' | hlt
  · exact hlive.kept (hsame' ▸ hgone)
  -- Its batch is above the durable mark, so the later batch of `c` is too, and is undone with it.
  obtain ⟨q, bq, hbq, hq⟩ := h.born c hmem
  have hlater : g.upto < q := h.order g.upto q b bq hb hbq (by rw [hq, ← hindex]; exact hlt)
  have hdurable : s.marks.durable < q := (unsyncedAbove_mem hg).2.trans hlater
  rcases h.sound.seqs.covered hbq hdurable with hu | ⟨u, hu, hub⟩
  · exact hlive.kept (undone_subset hstep (hq ▸ hu))
  obtain ⟨g', hg', rfl⟩ := mem_map.1 hu
  have hunsynced : g' ∈ s.writer.unsynced := by
    simpa [State.groups, hidle, Phase.group] using hg'
  obtain ⟨b', hb', hlast⟩ := h.sound.seqs.live_last g'.upto (mem_map_of_mem hg')
  have hupto : q ≤ g'.upto := hlast q (hbq.trans (hub.symm.trans hb'))
  have hvictim' := hvictim (h.sound.mem_unsyncedAbove hunsynced (lt_of_lt_of_le hdurable hupto)) hub
  exact hlive.kept (hq ▸ hvictim')

/-! ## What a step keeps -/

/-- No event touches the key of a live entry. -/
theorem Deduped.untouched (h : Deduped cfg s) (hstep : step cfg s e = some t)
    (hlive : s.Live c) (hop : op ∈ written s e) : op.key ≠ c.uKey := by
  intro hkey
  have hfamily : op.key.family = .dedupe := by rw [hkey]; rfl
  rcases written_cases h.sound h.held (reads_true s) hstep with hdeals | ⟨rfl, -⟩ | ⟨rfl, -⟩
  · have hdealt := hdeals op hop
    unfold Op.Dealt at hdealt
    rw [hfamily] at hdealt
    exact hdealt
  · have hmem := h.sound.mem_uKeys (h.sound.written_mem hop hfamily) hkey
    exact (h.entered c hlive).free (hkey ▸ hmem)
  · simp only [written] at hop
    split_ifs at hop
    · cases hop
    · exact h.unswept hlive (.inl hop) hkey

theorem dedupePuts_subset (ops : List Op) : dedupePuts ops ⊆ ops := filter_subset_self _

/-- A live entry that was live before. -/
theorem Deduped.entered_old (h : Deduped cfg s) (hok : DedupeOk s e) (hstep : step cfg s e = some t)
    (hmem : c ∈ s.ghost.commits) (hlive : t.Live c) : Entered t c := by
  have hbefore := hlive.before hstep hmem
  obtain ⟨hstored, hknown, hread, hfree⟩ := h.entered c hbefore
  have hmemory := step_memory hstep
  refine ⟨?_, ?_, fun call hcall r hr => ?_, ?_⟩
  · rw [(step_effect hstep).store,
      KV.Map.get_untouched _ fun op hop => h.unfenced hstep hlive hmem hop,
      KV.Map.get_untouched _ fun op hop => h.untouched hstep hbefore hop]
    exact hstored
  · cases hmemory.window with
    | same heq => exact heq ▸ hknown
    | begun heq => exact heq ▸ beginGroup_knows hknown h.clocks.window (h.clocks.commits c hmem)
    | cleared heq => exact heq ▸ KV.Window.knows_clear (h.clocks.commits c hmem)
    | landed heq =>
      refine heq ▸ hknown.record fun op hop hkey => hfree ?_
      exact hkey ▸ h.sound.mem_uKeys (dedupePuts_subset _ hop) hkey
    | swept heq => exact heq ▸ hknown.revise fun op hop => h.unswept hbefore (.inr hop)
  · cases hmemory.calls call hcall with
    | same hold => exact hread call hold r hr
    | unread htime hnone =>
      rw [hnone] at hr
      cases hr
    | read id before hold htime hvalues => exact .inl ((hvalues _ hr).trans hstored)
  · rcases hmemory.waiting with heq | heq | ⟨rfl, adm, calls, now, extra, hphase, heq⟩
    · rw [heq]
      exact hfree
    · rw [heq]
      exact not_mem_nil
    · -- The check has found the entry, so none of its items puts the key.
      intro hputs
      rw [heq] at hputs
      exact (dedupeCheck_verdicts _ _).free _ hputs _ (h.holds hok hphase hbefore)

theorem write_dedupeOps {ok : Bool} (h : write s ok = some t) : t.writer.phase.dedupeOps = [] := by
  unfold write at h
  split at h
  all_goals first
    | cases h
    | (split_ifs at h <;> obtain rfl := some.inj h <;> rfl)

/-- The write of a batch puts the keys of its dedupe check. -/
theorem Sound.mem_written (hs : Sound cfg s) {v : Val}
    (hop : .put k v ∈ s.writer.phase.dedupeOps) (hf : k.family = .dedupe) :
    .put k v ∈ written s (.write true) := by
  have hok := hs.phase.ok
  have hbuilt : ∀ {cx : Cx}, cx.Built cfg s.writer.nextSeq → .put k v ∈ cx.checked.dedupeOps →
      .put k v ∈ cx.ops := by
    intro cx hcx hop
    rw [hcx.ops]
    refine Deliveries.mem_coalesce_of ?_ (by simp [hf])
    simp only [mem_append]
    exact .inl (.inl (.inl hop))
  cases hphase : s.writer.phase with
  | applied | built =>
    rw [hphase] at hok hop
    simp only [written, hphase]
    exact hbuilt hok.1 hop
  | _ =>
    rw [hphase] at hop
    cases hop

/-- An entry of the batch that is being written. -/
theorem Deduped.entered_new (h : Deduped cfg s) (hstep : step cfg s e = some t)
    (hc : c ∈ landed s e) : Entered t c := by
  obtain ⟨rfl, hmem⟩ := mem_landed hc
  obtain ⟨hput, -, hwrote⟩ := mem_commitsOf hmem
  refine ⟨?_, ?_, fun call hcall r hr => .inr ?_, ?_⟩
  · rw [(step_effect hstep).store, show unwritten s (.write true) = [] from rfl, KV.Map.write_nil]
    refine KV.Map.get_write_put _ (h.sound.mem_written hput rfl) fun op hop hkey => ?_
    exact h.sound.put_unique hmem (h.sound.written_mem hop (by rw [hkey]; rfl)) hkey
  · rw [write_window hstep]
    refine KV.Window.knows_record (mem_filter.2 ⟨hput, rfl⟩) fun op hop hkey => ?_
    exact h.sound.put_unique hmem (dedupePuts_subset _ hop) hkey
  · rw [hwrote]
    cases (step_memory hstep).calls call hcall with
    | same hold => exact h.clocks.calls call hold
    | unread htime => exact htime.le
  · rw [write_dedupeOps hstep]
    exact not_mem_nil

theorem Sound.landed_apart (hs : Sound cfg s) (e : Event) :
    (landed s e).Pairwise fun a b => a.uKey ≠ b.uKey := by
  cases hlanded : landed s e with
  | nil => exact .nil
  | cons =>
    obtain ⟨rfl, -⟩ := mem_landed (hlanded ▸ mem_cons_self)
    obtain ⟨now, hnodup, -⟩ := hs.verdicts
    rw [← hlanded, landed_eq]
    rwa [← map_uKey_commitsOf _ s.ghost.wal s.mono, nodup_iff_pairwise_ne, pairwise_map] at hnodup

section

variable (h : Deduped cfg s)
include h

section

variable (hstep : step cfg s e = some t)
include hstep

theorem Deduped.unique_step :
    t.ghost.commits.Pairwise fun newer older => older.index ≤ newer.index ∧
      (t.Live older → newer.uKey ≠ older.uKey) := by
  rw [(step_effect hstep).commits, pairwise_append]
  refine ⟨?_, ?_, fun newer hnew older hold => ?_⟩
  · refine (h.sound.landed_apart e).imp_of_mem fun {a b} ha hb hne => ⟨?_, fun _ => hne⟩
    rw [(mem_commitsOf (mem_landed ha).2).2.1, (mem_commitsOf (mem_landed hb).2).2.1]
  · refine h.unique.imp_of_mem fun {a b} ha hb hab => ⟨hab.1, fun hlive => ?_⟩
    exact hab.2 (hlive.before hstep hb)
  · obtain ⟨rfl, hmem⟩ := mem_landed hnew
    obtain ⟨q, b, hb, hindex⟩ := h.born older hold
    refine ⟨?_, fun hlive heq => ?_⟩
    · rw [(mem_commitsOf hmem).2.1, ← hindex]
      exact (h.sound.seqs.birth_lt hb).2.le
    · refine (h.entered older (hlive.before hstep hold)).free ?_
      rw [← heq, ← map_uKey_commitsOf _ s.ghost.wal s.mono]
      exact mem_map_of_mem hmem

/-- A batch with dedupe entries numbers a hook. -/
theorem Deduped.born_step :
    ∀ c ∈ t.ghost.commits, ∃ q b, t.ghost.birth q = some b ∧ b.index = c.index := by
  intro c hc
  rw [(step_effect hstep).commits] at hc
  rcases mem_append.1 hc with hnew | hold
  · obtain ⟨rfl, hmem⟩ := mem_landed hnew
    have hok := h.sound.phase.ok
    simp only [step, write] at hstep
    split at hstep
    next hphase =>
      rw [hphase] at hok
      have hpos := hok.1.fresh_pos
      cases hstep
      exact ⟨s.writer.nextSeq, _, if_pos ⟨le_rfl, by omega⟩, (mem_commitsOf hmem).2.1.symm⟩
    next hphase =>
      rw [hphase] at hok
      have hpos := hok.1.fresh_pos
      rw [if_neg fun hextra => by rw [if_pos hextra] at hstep; cases hstep] at hstep
      cases hstep
      exact ⟨s.writer.nextSeq, _, if_pos ⟨le_rfl, by omega⟩, (mem_commitsOf hmem).2.1.symm⟩
    next hphase =>
      rw [hphase] at hmem
      cases hmem
    next hphase =>
      rw [hphase] at hmem
      cases hmem
    · cases hstep
  · obtain ⟨q, b, hb, hindex⟩ := h.born c hold
    exact ⟨q, b, h.sound.birth_mono hstep hb, hindex⟩

theorem Deduped.owned_step :
    ∀ g ∈ t.groups, ∀ tenant source key, g.Puts (.dedupe tenant source key) →
      ∃ b, t.ghost.birth g.upto = some b ∧
        ∃ c ∈ t.ghost.commits, c.uKey = .dedupe tenant source key ∧ c.index = b.index := by
  intro g hg tenant source key hputs
  have hcommits := (step_effect hstep).commits
  rcases step_groups hstep hg with hold | hnew
  · obtain ⟨b, hb, c, hc, hkey, hindex⟩ := h.owned g hold tenant source key hputs
    exact ⟨b, h.sound.birth_mono hstep hb, c, hcommits ▸ mem_append_right _ hc, hkey, hindex⟩
  obtain ⟨cx, prev, hphase, rfl, hbirth⟩ := birth_of_newGroup hstep hnew
  have hok := h.sound.phase.ok
  rw [hphase] at hok
  have hpos := hok.1.fresh_pos
  refine ⟨⟨s.ghost.wal, cx.now⟩, ?_, ?_⟩
  · rw [hbirth]
    exact if_pos ⟨by dsimp only; omega, by dsimp only; omega⟩
  -- Only the dedupe check puts keys of the index.
  obtain ⟨ops, hops, v, hv⟩ := hputs
  rw [hok.1.undo] at hops
  rcases mem_pair.1 hops with rfl | rfl
  · obtain ⟨c, hc, hkey | hkey⟩ := paired_commit hok.1.paired hv rfl rfl s.ghost.wal s.mono
    · refine ⟨c, ?_, hkey, (mem_commitsOf hc).2.1⟩
      rw [hcommits,
        show e = .write true by
          unfold newGroup at hnew; split at hnew <;> trivial, landed_eq, hphase]
      exact mem_append_left _ hc
    · cases hkey
  · rcases mem_buildOps hv with heq | ⟨q, ⟨hf, -⟩ | hf, -⟩
    · cases heq
    · cases hf
    · cases hf

end

theorem Deduped.step (hok : DedupeOk s e) (hstep : Node.step cfg s e = some t) : Deduped cfg t where
  sound := h.sound.step hstep
  groups := h.groups.step h.sound hstep
  held := h.held.step (reads_true s) (fun _ _ => trivial) hstep
  order := h.order.step h.sound.seqs (h.sound.protocol hstep)
  clocks := h.clocks.step hstep
  sealed := by
    intro calls now extra hphase hextra
    rcases (step_memory hstep).sealed calls now extra hphase hextra with hold | hnone
    · exact h.sealed calls now extra hold hextra
    · exact hnone
  entered := by
    intro c hlive
    have hmem := hlive.mem
    rw [(step_effect hstep).commits] at hmem
    rcases mem_append.1 hmem with hnew | hold
    · exact h.entered_new hstep hnew
    · exact h.entered_old hok hstep hold hlive
  unique := h.unique_step hstep
  born := h.born_step hstep
  owned := h.owned_step hstep

end

theorem Deduped.boot (store : Store) (closed : List String) (wall mono : Ms) :
    Deduped cfg (boot store closed wall mono) where
  sound := Sound.boot store closed wall mono
  groups := forall_mem_nil _
  held := Held.boot store closed wall mono
  order := fun _ _ _ _ hb => by cases hb
  clocks := Clocks.boot store closed wall mono
  sealed := nofun
  entered := fun _ hlive => absurd hlive.mem not_mem_nil
  unique := .nil
  born := forall_mem_nil _
  owned := forall_mem_nil _

/-! ## Every run -/

/-- The items of a group that are about to be committed as new hooks. -/
def Phase.fresh : Phase → List Item
  | .built cx | .applied cx _ => cx.checked.fresh
  | _ => []

/-- A hook that is committed under a dedupe key has an entry there. -/
theorem Sound.recorded (hs : Sound cfg s) {item : Item} (hitem : item ∈ s.writer.phase.fresh)
    (hk : dedupeKey item = some k) :
    ∃ c ∈ landed s (.write true), c.uKey = k ∧ c.id = item.env.id := by
  have hput : ∃ time, .put k (.expiry time item.env.id) ∈ s.writer.phase.dedupeOps := by
    have hok := hs.phase.ok
    cases hphase : s.writer.phase with
    | built | applied =>
      rw [hphase] at hok hitem
      obtain ⟨stored, usage, enforce, items, heq⟩ := hok.1.checked
      simp only [Phase.fresh, Phase.dedupeOps, heq] at hitem ⊢
      exact dedupeCheck_recorded usage items hitem hk
    | _ =>
      rw [hphase] at hitem
      cases hitem
  obtain ⟨time, hput⟩ := hput
  obtain ⟨d, -, rfl⟩ := map_eq_some_iff.1 hk
  rw [landed_eq]
  exact ⟨_, mem_filterMap.2 ⟨_, hput, rfl⟩, rfl, rfl⟩

/-- What the calls `from_` will be told is `reply`: they have been, the syncer tells them after its
    fsync, or the writer holds the reply until its batch is written. -/
def Promises (s t : State) (from_ : List (Nat × Nat)) (reply : Reply) : Prop :=
  t.ghost.replies = s.ghost.replies ++ Syncer.replyCalls from_ reply ∨
    (∃ entry : Entry, t.syncer.mailbox = s.syncer.mailbox ++ [.sync entry] ∧ entry.calls = from_ ∧
      entry.reply = reply) ∨
    (∃ extra, t.writer.phase = .extraOnly from_ reply extra) ∨
    ∃ cx, t.writer.phase = .built cx ∧ cx.calls = from_ ∧ cx.reply t.writer.nextSeq = reply

/-- The results of a group: one for each item. An admitted item under the key of a live entry is a
    duplicate of the entry's hook, and one under the key of an item committed before it in the group
    is a duplicate of that item. -/
structure Deduplicates (s : State) (tag : Item → Option Reason) (items : List Item)
    (results : List Result) : Prop where
  length : results.length = items.length
  live : ∀ a ∈ items.zip results, tag a.1 = none → ∀ c, s.Live c → dedupeKey a.1 = some c.uKey →
    a.2 = .duplicate { a.1.env with id := c.id }
  order : (items.zip results).Pairwise fun a b => tag a.1 = none → tag b.1 = none → ∀ k env seq,
    dedupeKey a.1 = some k → dedupeKey b.1 = some k → a.2 = .committed env seq →
    b.2 = .duplicate { b.1.env with id := a.1.env.id }

theorem Deduped.deduplicates (h : Deduped cfg s) (hok : DedupeOk s (.check reads))
    (hphase : s.writer.phase = .stamped calls now extra) (adm : Admission) (first : Nat) :
    Deduplicates s (fun i => refusedTenant adm (itemTenant i)) (calls.flatMap Call.items)
      (withRefused ((calls.flatMap Call.items).map fun i => refusedTenant adm (itemTenant i))
        (reassemble (dedupe cfg s adm calls now extra).results first)) := by
  have hverdicts : Verdicts (seenKeys s calls extra) now
      ((calls.flatMap Call.items).filter fun i => (refusedTenant adm (itemTenant i)).isNone)
      (dedupe cfg s adm calls now extra) := dedupeCheck_verdicts _ _
  obtain ⟨hlength, hheld, horder⟩ := hverdicts.answered first
  exact ⟨hlength, fun a ha htag c hlive hk => hheld a ha htag _ _ hk (h.holds hok hphase hlive),
    horder⟩

/-- The tenants of a group as its check admits them. -/
def admitted (cfg : Config) (s : State) (calls : List Call) : Admission :=
  admission cfg { s with writer := syncEpoch s.writer s.epoch } (calls.flatMap Call.items)

/-- What a checked group will be told. -/
theorem check_promises (h : check cfg s true = some t)
    (hphase : s.writer.phase = .stamped calls now extra) :
    ∃ reply, Promises s t (calls.map fun c => (c.id, c.items.length)) reply ∧
      ∀ results, reply = .ok results → results =
        withRefused ((calls.flatMap Call.items).map fun i =>
            refusedTenant (admitted cfg s calls) (itemTenant i))
          (reassemble (dedupe cfg s (admitted cfg s calls) calls now extra).results
            s.writer.nextSeq) := by
  simp only [check, hphase, Bool.true_eq_false, if_false, some.injEq] at h
  subst h
  have hnext := (syncEpoch_fields s.writer s.epoch).1
  have hdedupe := dedupe_syncEpoch cfg s s.epoch
  unfold checkGroup admitted
  generalize hs' : ({ s with writer := syncEpoch s.writer s.epoch } : State) = s' at hdedupe ⊢
  have hreplies : s'.ghost = s.ghost ∧ s'.syncer = s.syncer ∧
      s'.writer.nextSeq = s.writer.nextSeq := by
    rw [← hs']
    exact ⟨rfl, rfl, hnext⟩
  obtain ⟨hghost, hsyncer, hnext⟩ := hreplies
  dsimp only
  generalize admission cfg s' (calls.flatMap Call.items) = adm
  rw [hdedupe, ← hnext]
  split_ifs with hrefused hfresh hpipelined
  · refine ⟨.error adm.refusal, .inl ?_, (by simp)⟩
    rw [← hghost]
    rfl
  · refine ⟨.ok _, ?_, fun _ heq => (Reply.ok.inj heq).symm⟩
    unfold settleReply
    split_ifs
    · refine .inr (.inl ⟨⟨s'.marks.applied, s'.writer.lastAt, _, _⟩, ?_, rfl, rfl⟩)
      rw [← hsyncer]
      rfl
    · refine .inl ?_
      rw [← hghost]
      rfl
  · exact ⟨.ok _, .inr (.inr (.inl ⟨extra, rfl⟩)), fun _ heq => (Reply.ok.inj heq).symm⟩
  · exact ⟨.ok _, .inr (.inr (.inr ⟨_, rfl, rfl, rfl⟩)), fun _ heq => (Reply.ok.inj heq).symm⟩

/-- **A live key is committed once.** Take any run whose checks keep `DedupeOk`, and any step after
    it. A batch that is written has one entry for each hook that dedupes, no two for one key, and
    none for the key of a live entry. A group that is checked is told of every admitted item under a
    live key that it is a duplicate of the hook that has it, and so of an item under a key the group
    has committed. -/
theorem live_key_commits_once {store : Store} {closed : List String} {wall mono : Ms}
    {es : List Event} (hok : Run.Along (step cfg) DedupeOk (boot store closed wall mono) es)
    (hs : Run.exec (step cfg) (boot store closed wall mono) es = some s) (hnext : DedupeOk s e)
    (hstep : step cfg s e = some t) :
    (e = .write true → ∀ item ∈ s.writer.phase.fresh, ∀ k, dedupeKey item = some k →
      ∃ c ∈ landed s e, c.uKey = k ∧ c.id = item.env.id) ∧
        (landed s e).Pairwise (fun a b => a.uKey ≠ b.uKey) ∧
    (∀ c, s.Live c → ∀ c' ∈ landed s e, c'.uKey ≠ c.uKey) ∧
    ∀ calls now extra, e = .check true → s.writer.phase = .stamped calls now extra →
      ∃ reply, Promises s t (calls.map fun c => (c.id, c.items.length)) reply ∧
        ∀ results, reply = .ok results → Deduplicates s
          (fun i => refusedTenant (admitted cfg s calls) (itemTenant i)) (calls.flatMap Call.items)
          results := by
  have hdeduped : Deduped cfg s := invariant_along
    (fun _ _ _ hi hp hstep => hi.step hp hstep) (Deduped.boot store closed wall mono) hok hs
  refine ⟨?_, ?_, fun c hlive c' hc' heq => ?_, ?_⟩
  · rintro rfl item hitem k hk
    exact hdeduped.sound.recorded hitem hk
  · exact hdeduped.sound.landed_apart e
  · obtain ⟨rfl, hmem⟩ := mem_landed hc'
    refine (hdeduped.entered c hlive).free ?_
    rw [← heq, ← map_uKey_commitsOf _ s.ghost.wal s.mono]
    exact mem_map_of_mem hmem
  · rintro calls now extra rfl hphase
    obtain ⟨reply, hpromise, hresults⟩ := check_promises hstep hphase
    refine ⟨reply, hpromise, fun results hreply => ?_⟩
    rw [hresults results hreply]
    exact hdeduped.deduplicates hnext hphase _ s.writer.nextSeq

end

/-! ## Two runs -/

/-- A hook that dedupes for a minute. -/
def minuteItem (id : String) : Item := { keyedItem id "k" with ttl := some 60000 }

/-- A hook is committed, and a second delivery of it is about to be checked. -/
def repeatedRun : List Event :=
  [.tick 11 1] ++ groupOf 1 [minuteItem "a"] ++
    [.tick 12 2, .prepare 2 [minuteItem "b"], .prefetch 2, .enqueue 2, .begin_, .drain []]

theorem repeatedRun_commits_once : ∃ s t, Run.exec (step plainConfig)
    (boot ∅ [] 10 0) repeatedRun = some s ∧ step plainConfig s (.check true) = some t ∧
    s.ghost.commits = [⟨"acme", "github", "k", 60011, "a", 0, 1⟩] ∧
    t.syncer.mailbox.getLast? =
    some (.sync ⟨1, 11, [(2, 1)], .ok [.duplicate (minuteItem "a").env]⟩) ∧
    (landed s (.check true)).Pairwise (fun a b => a.uKey ≠ b.uKey) ∧
    (∀ c, s.Live c → ∀ c' ∈ landed s (.check true), c'.uKey ≠ c.uKey) ∧
    ∃ call now, s.writer.phase = .stamped [call] now [] ∧ ∃ reply, Promises s t [(2, 1)] reply ∧
      ∀ results, reply = .ok results → Deduplicates s
        (fun i => refusedTenant (admitted plainConfig s [call]) (itemTenant i)) call.items
        results := by
  have hrun : ∃ s, exec (step plainConfig) (boot ∅ [] 10 0) repeatedRun = some s ∧
      (s.ghost.commits = [⟨"acme", "github", "k", 60011, "a", 0, 1⟩] ∧ DedupeOk s (.check true) ∧
        s.writer.phase = .stamped [⟨2, [minuteItem "b"],
          [(.dedupe "acme" "github" "k", some (.expiry 60011 "a"))], 2⟩] 12 [] ∧
        ((step plainConfig s (.check true)).any fun t => t.syncer.mailbox.getLast? =
          some (.sync ⟨1, 11, [(2, 1)], .ok [.duplicate (minuteItem "a").env]⟩)) = true) :=
    of_exec (by decide +kernel)
  have hok : Along (step plainConfig) DedupeOk (boot ∅ [] 10 0) repeatedRun := by decide +kernel
  obtain ⟨s, hs, hcommits, hnext, hphase, hreply⟩ := hrun
  obtain ⟨t, ht, hlast⟩ := (any_eq_true _ _).1 hreply
  obtain ⟨-, hapart, hlive, hcheck⟩ := live_key_commits_once hok hs hnext ht
  exact ⟨s, t, hs, ht, hcommits, of_decide_eq_true hlast, hapart, hlive, _, _, hphase,
    hcheck _ _ _ rfl hphase⟩

/-- A call reads in the millisecond in which the key is written and the window is rotated, and
    arrives when the window is rotated again. -/
def rotatedRun : List Event :=
  [.tick 2009 1999, .prepare 1 [minuteItem "a"], .prefetch 1, .enqueue 1, .begin_, .drain [],
    .tick 2010 2000, .prepare 2 [minuteItem "b"], .prefetch 2,
    .check true, .setApplied, .write true, .track] ++ groupOf 3 [plainItem "c"] ++
  [.tick 4010 4000, .enqueue 2, .begin_, .drain [], .check true, .setApplied,
    .write true, .track] ++ fsync true 3

theorem rotatedRun_commits_twice : ∃ s, Run.exec (step plainConfig)
    (boot ∅ [] 10 0) rotatedRun = some s ∧
      s.ghost.commits = [⟨"acme", "github", "k", 64010, "b", 2, 4000⟩,
        ⟨"acme", "github", "k", 62009, "a", 0, 2000⟩] ∧
      s.ghost.undone = [] ∧ s.ghost.wallMax = 4010 ∧
      (1, .ok [.committed (minuteItem "a").env 1]) ∈ s.ghost.replies ∧
      (2, .ok [.committed (minuteItem "b").env 3]) ∈ s.ghost.replies :=
  of_exec (by decide +kernel)

end Ankusa.Node
