import Ankusa.Queue.Effects

set_option autoImplicit false

/-! # What a fence deletes

A fence deletes what the groups above the durable mark wrote. Every operation of a group is about
the hooks of its own batch (`GroupOk`), so the rows of a hook whose batch was never undone are,
after any number of fences, what they would be had no fence been written (`Intact`). A hook its
caller was told about is never undone: that is the group-commit protocol's own invariant. -/

namespace Ankusa.Node

open Writer List Run

section

variable {cfg : Config} {s t : State}

/-- A fence deleted the batch of hook `q`. -/
def State.Undone (s : State) (q : Nat) : Prop :=
  ∃ b, s.ghost.birth q = some b ∧ b.index ∈ s.ghost.undone

/-- A group's operations touch hooks of its batch only, they add to shared keys only, what they make
    due is due at the batch's stamp, and they claim nothing. -/
structure GroupOk (birth : Nat → Option GroupCommit.Birth) (g : Group) : Prop where
  batch : ∀ q, g.Touches q → ∃ b, birth q = some b ∧ birth g.upto = some b
  plain : ∀ ops ∈ g.undo, ∀ op ∈ ops, op.key.family ≠ .shared → op.merges = false
  due : ∀ ord time seq sink, g.Puts (.due ord time seq sink) →
    ∃ b, birth g.upto = some b ∧ b.stamp = time
  unclaimed : ∀ ord seq sink, ¬ g.Puts (.inflight ord seq sink)

/-- Every group that may be fenced is well formed. -/
def GroupsOk (s : State) : Prop := ∀ g ∈ s.groups, GroupOk s.ghost.birth g

/-- The rows of every hook that is not undone are what they would be without the fences. -/
def Intact (s : State) : Prop :=
  ∀ k q, k.seq? = some q → ¬ s.Undone q → s.store.get k = s.ghost.unfenced.get k

variable {e : Event}

/-- The protocol step behind a step of a sound node. -/
theorem Sound.protocol (hs : Sound cfg s) (h : Node.step cfg s e = some t) :
    GroupCommit.Step False False s.proto t.proto := by
  have hmoves : Moves False False s t ∧ t.PhaseOk cfg := step_proto hs False.elim False.elim h
  exact hmoves.1.protocol hs.disk.synced_le

variable {q : Nat}

theorem Sound.birth_mono (hs : Sound cfg s) (h : Node.step cfg s e = some t)
    {b : GroupCommit.Birth} (hb : s.ghost.birth q = some b) : t.ghost.birth q = some b :=
  (hs.protocol h).birth_mono hs.seqs hb

theorem Sound.undone_mono (hs : Sound cfg s) (h : Node.step cfg s e = some t) (hq : s.Undone q) :
    t.Undone q :=
  (hs.protocol h).undone_mono hs.seqs hq

variable {g : Group}

theorem birth_of_newGroup (h : step cfg s e = some t) (hg : newGroup s e = some g) :
    ∃ cx prev, s.writer.phase = .applied cx prev ∧
      g = ⟨s.writer.nextSeq + cx.checked.fresh.length - 1, cx.undo⟩ ∧
      t.ghost.birth = s.born cx.checked.fresh.length cx.now := by
  unfold newGroup at hg
  split at hg
  · split at hg
    next cx prev hphase =>
      simp only [step, write, hphase] at h
      cases h
      exact ⟨cx, prev, hphase, (Option.some.inj hg).symm, rfl⟩
    · cases hg
  · cases hg

theorem GroupsOk.step (hg : GroupsOk s) (hs : Sound cfg s) (h : Node.step cfg s e = some t) :
    GroupsOk t := by
  intro g hmem
  rcases step_groups h hmem with hold | hnew
  · refine ⟨fun q hq => ?_, (hg g hold).plain, fun ord time seq sink hput => ?_,
      (hg g hold).unclaimed⟩
    · obtain ⟨b, hb, hu⟩ := (hg g hold).batch q hq
      exact ⟨b, hs.birth_mono h hb, hs.birth_mono h hu⟩
    · obtain ⟨b, hu, hstamp⟩ := (hg g hold).due ord time seq sink hput
      exact ⟨b, hs.birth_mono h hu, hstamp⟩
  · obtain ⟨cx, prev, hphase, rfl, hbirth⟩ := birth_of_newGroup h hnew
    have hok := hs.phase.ok
    rw [hphase] at hok
    have hpos := hok.1.fresh_pos
    have hupto : t.ghost.birth (s.writer.nextSeq + cx.checked.fresh.length - 1) =
        some ⟨s.ghost.wal, cx.now⟩ := by
      rw [hbirth]
      exact if_pos ⟨by omega, by omega⟩
    refine ⟨fun q hq => ⟨_, ?_, hupto⟩, fun ops hops op hop => hok.1.undo_plain hops hop,
      fun ord time seq sink hput => ⟨_, hupto, ?_⟩, fun ord seq sink hput => ?_⟩
    · obtain ⟨ops, hops, op, hop, hseq⟩ := hq
      rw [hbirth]
      exact if_pos (hok.1.undo_seq hops hop hseq)
    · obtain ⟨ops, hops, v, hv⟩ := hput
      exact Eq.symm (hok.1.undo_new hops _ hv nofun)
    · obtain ⟨ops, hops, v, hv⟩ := hput
      exact hok.1.undo_new hops _ hv nofun

theorem GroupsOk.plain (hg : GroupsOk s) : ∀ g ∈ unsyncedAbove s.writer.unsynced s.marks.durable,
    ∀ ops ∈ g.undo, ∀ op ∈ ops, op.key.family ≠ .shared → op.merges = false :=
  fun g hmem => (hg g (mem_append_right _ (unsyncedAbove_mem hmem).1)).plain

theorem unwritten_creates (hg : GroupsOk s) {op : Op} (hop : op ∈ unwritten s e)
    (hc : op.creates = true) : op.key.family = .shared := by
  unfold unwritten at hop
  split_ifs at hop
  · exact undoOps_creates hop hg.plain hc
  · cases hop

theorem Sound.mem_unsyncedAbove (hs : Sound cfg s) (hg : g ∈ s.writer.unsynced)
    (hlt : s.marks.durable < g.upto) : g ∈ unsyncedAbove s.writer.unsynced s.marks.durable := by
  have hsorted : s.groups.Pairwise fun a b => a.upto > b.upto := pairwise_map.1 hs.seqs.sorted
  exact GroupCommit.mem_takeWhile_of_sorted (pairwise_append.1 hsorted).2.1 hg hlt

/-- A fence deletes what the groups above the durable mark put. -/
theorem fence_deletes (hg : GroupsOk s) (he : e.fences = true) (h : step cfg s e = some t)
    (hmem : g ∈ unsyncedAbove s.writer.unsynced s.marks.durable) {k : Key} (hputs : g.Puts k)
    (hmarker : k.family ≠ .marker) (hshared : k.family ≠ .shared) : t.store.get k = none := by
  have hdelete : .delete k ∈ unwritten s e := by
    unfold unwritten
    rw [if_pos he]
    exact undoOps_delete hmem hputs hmarker hshared
  rw [(step_effect h).store]
  refine KV.Map.get_write_delete _ hdelete fun op hop hkey => ?_
  cases op with
  | delete => exact congrArg _ hkey
  | _ =>
    have hcreates := unwritten_creates hg hop rfl
    rw [hkey] at hcreates
    exact absurd hcreates hshared

/-- What a fence deletes with touches undone hooks only. -/
theorem undone_of_unwritten (hg : GroupsOk s) (h : step cfg s e = some t) {op : Op}
    (hop : op ∈ unwritten s e) (hq : op.key.seq? = some q) : t.Undone q := by
  unfold unwritten at hop
  split_ifs at hop with he
  · obtain ⟨hidle, hbirth, -, hundone⟩ := fence_effect he h
    obtain ⟨g, hgmem, htouch⟩ := undoOps_touches hop hq
    obtain ⟨b, hb, hu⟩ := (hg g (mem_append_right _ (unsyncedAbove_mem hgmem).1)).batch q htouch
    refine ⟨b, by rw [hbirth, hb], ?_⟩
    rw [hundone]
    exact mem_append_left _ (mem_filterMap.2 ⟨g, hgmem, by rw [hu]; rfl⟩)
  · cases hop

theorem Intact.step (hi : Intact s) (hg : GroupsOk s) (hs : Sound cfg s)
    (h : Node.step cfg s e = some t) : Intact t := by
  intro k q hk hq
  have hbefore : s.store.get k = s.ghost.unfenced.get k :=
    hi k q hk fun hu => hq (hs.undone_mono h hu)
  have heffect := step_effect h
  rw [heffect.store, heffect.unfenced, KV.Map.get_untouched]
  · exact KV.Map.get_write_congr hbefore _
  · rintro op hop rfl
    exact hq (undone_of_unwritten hg h hop hk)

theorem intact_exec {store : Store} {closed : List String} {wall mono : Ms} {es : List Event}
    (h : exec (step cfg) (boot store closed wall mono) es = some s) :
    Sound cfg s ∧ GroupsOk s ∧ Intact s := by
  refine exec_invariant (I := fun s => Sound cfg s ∧ GroupsOk s ∧ Intact s) ?_ ?_ h
  · rintro s e t ⟨hs, hg, hi⟩ hstep
    exact ⟨hs.step hstep, hg.step hs hstep, hi.step hg hs hstep⟩
  · refine ⟨Sound.boot store closed wall mono, ?_, fun k q _ _ => rfl⟩
    intro g hg
    cases hg

/-- **A committed hook is never deleted by a fence.** Whatever the order of the processes and
    whichever writes and fsyncs fail: when a caller was told that its hook was committed under
    `seq`, no fence has deleted the hook's batch, and every row of the hook is what the writes of
    its own group and of dispatch left, as if there had been no fence. -/
theorem committed_survives_fences {store : Store} {closed : List String} {wall mono : Ms}
    {es : List Event} (h : Run.exec (step cfg) (boot store closed wall mono) es = some s)
    {call seq : Nat} {results : List Result} {env : Env}
    (hreply : (call, .ok results) ∈ s.ghost.replies) (hseq : .committed env seq ∈ results) :
    ¬ s.Undone seq ∧ ∀ k : Key, k.seq? = some seq → s.store.get k = s.ghost.unfenced.get k := by
  obtain ⟨hs, -, hi⟩ := intact_exec h
  have hacked : seq ∈ s.proto.acked := ⟨_, hreply, Reply.commits_ok.2 ⟨env, hseq⟩⟩
  have hnot : ¬ s.Undone seq := (hs.acks.acked seq hacked).2
  exact ⟨hnot, fun k hk => hi k seq hk hnot⟩

end

/-! ## A run with a fence -/

/-- A node without an archive. -/
def plainConfig : Config := ⟨false, 10, ⟨100, 100⟩, 1000, 1000000⟩

/-- A hook of tenant `acme` for one sink. -/
def plainItem (id : String) : Item :=
  ⟨⟨id, some "acme", "github", none⟩, [1, 2, 3],
    [some (Deliveries.newRow "Http" 10 3 "github" none none, none)], none⟩

/-- A hook with a dedupe key of tenant `acme`. -/
def keyedItem (id key : String) : Item :=
  { plainItem id with env := ⟨id, some "acme", "github", some key⟩, ttl := some 1000 }

/-- Call `n` with the hooks `items`, from its caller to the writer's tracked group. -/
def groupOf (n : Nat) (items : List Item) : List Event :=
  [.prepare n items, .prefetch n, .enqueue n, .begin_, .drain [], .check true, .setApplied,
    .write true, .track]

/-- An fsync of whatever waits, with `waiting` entries to answer. -/
def fsync (ok : Bool) (waiting : Nat) : List Event :=
  [.syncerTake, .syncerSync ok] ++ replicate (waiting + 1) .syncerAnswer

/-- One hook is committed, the fsync of the next one fails and a fence deletes it. -/
def fencedRun : List Event :=
  groupOf 1 [plainItem "a"] ++ fsync true 1 ++ groupOf 2 [plainItem "b"] ++ fsync false 1 ++
    [.syncFailed true]

theorem fencedRun_survives : ∃ s, Run.exec (step plainConfig) (boot ∅ [] 10 0) fencedRun = some s ∧
    s.ghost.undone = [1] ∧ s.store.get (.hook 2) = none ∧
    s.store.get (.hook 1) = some (.hook [1, 2, 3]) ∧
    ¬ s.Undone 1 ∧ ∀ k : Key, k.seq? = some 1 → s.store.get k = s.ghost.unfenced.get k := by
  have hrun : ∃ s, exec (step plainConfig) (boot ∅ [] 10 0) fencedRun = some s ∧
      (s.ghost.undone = [1] ∧ s.store.get (.hook 2) = none ∧
        s.store.get (.hook 1) = some (.hook [1, 2, 3]) ∧
        (1, .ok [.committed (plainItem "a").env 1]) ∈ s.ghost.replies) :=
    of_exec (by decide +kernel)
  obtain ⟨s, hs, hundone, hgone, hkept, hreply⟩ := hrun
  exact ⟨s, hs, hundone, hgone, hkept, committed_survives_fences hs hreply (mem_singleton_self _)⟩

end Ankusa.Node
