import Ankusa.Queue.Node
import Ankusa.Queue.Batches
import Ankusa.Lib.GroupCommitSafety

set_option autoImplicit false

/-! # The node runs the group-commit protocol

`State.proto` forgets everything of a node but the numbers: the seqs handed out and their batches,
the marks, the groups that wait for an fsync, and the messages between the writer and the syncer.
Every step of the node is a step of `GroupCommit.Step` under it (`step_proto`), so the protocol's
invariants hold of every node (`Sound`).

What the simulation needs of the writer is that a group on its way to the store is what `check`
built (`Cx.Built`): its operations and its reply are about the seqs from `nextSeq` on and no
others. -/

namespace Ankusa

open List Syncer

open GroupCommit (Ticket Msg Doing)

/-! ## The projection -/

/-- The ticket of a group. -/
def Entry.ticket (e : Entry) : Ticket := ⟨e.upto, e.time, {q | e.reply.Commits q}⟩

/-- A message as the protocol sees it. -/
def SyncMsg.msg : SyncMsg → Msg
  | .sync e => .sync e.ticket
  | .resume seq time => .resume seq time

/-- The syncer's phase as the protocol sees it. -/
def SyncPhase.doing : SyncPhase → Doing
  | .idle => .idle
  | .syncing es start => .syncing (es.map Entry.ticket) start
  | .answering es error => .answering (es.map Entry.ticket) error.isSome

/-- The groups the syncer has taken. -/
def SyncPhase.entries : SyncPhase → List Entry
  | .idle => []
  | .syncing es _ => es
  | .answering es _ => es

namespace Syncer

theorem tickets_map (ms : List SyncMsg) :
    GroupCommit.tickets (ms.map SyncMsg.msg) = (entries ms).map Entry.ticket := by
  induction ms with
  | nil => rfl
  | cons m ms ih => cases m <;> simp [SyncMsg.msg, GroupCommit.tickets, entries, ih]

theorem rest_map (ms : List SyncMsg) :
    GroupCommit.rest (ms.map SyncMsg.msg) = (rest ms).map SyncMsg.msg := by
  induction ms with
  | nil => rfl
  | cons m ms ih => cases m <;> simp [SyncMsg.msg, GroupCommit.rest, rest, ih]

theorem behind_map (ms : List SyncMsg) :
    GroupCommit.behind (ms.map SyncMsg.msg) = (behindResume ms).map Entry.ticket := by
  induction ms with
  | nil => rfl
  | cons m ms ih =>
    cases m <;> simp [SyncMsg.msg, GroupCommit.behind, behindResume, tickets_map, ih]

theorem cover_map (es : List Entry) : GroupCommit.cover (es.map Entry.ticket) = covered es := by
  rw [GroupCommit.cover, covered, foldl_map]
  rfl

/-- A call is told of a commit only if the reply of its group has it. -/
theorem commits_of_replyCalls {calls : List (Nat × Nat)} {reply : Reply} {r : Nat × Reply} {q : Nat}
    (h : r ∈ replyCalls calls reply) (hq : r.2.Commits q) : reply.Commits q := by
  fun_induction replyCalls calls reply with
  | case1 => cases h
  | case2 call count calls results ih =>
    rcases mem_cons.1 h with rfl | h
    · obtain ⟨env, henv⟩ := Reply.commits_ok.1 hq
      exact Reply.commits_ok.2 ⟨env, mem_of_mem_take henv⟩
    · obtain ⟨env, henv⟩ := Reply.commits_ok.1 (ih h)
      exact Reply.commits_ok.2 ⟨env, mem_of_mem_drop henv⟩
  | case3 call count calls reply hne ih =>
    rcases mem_cons.1 h with rfl | h
    · exact hq
    · exact ih h

end Syncer

namespace Node

open Writer Run

/-- The applied mark as it was before the group being written. -/
def Phase.floor (applied : Nat) : Phase → Nat
  | .applied _ prev => prev
  | _ => applied

/-- The group that is written and not listed yet. -/
def Phase.group : Phase → List Group
  | .tracking g => [g]
  | _ => []

/-- The groups a fence may have to delete, newest first. -/
def State.groups (s : State) : List Group := s.writer.phase.group ++ s.writer.unsynced

/-- The node as the protocol sees it. -/
def State.proto (s : State) : GroupCommit.State where
  next := s.writer.nextSeq
  clock := s.writer.lastAt
  applied := s.writer.phase.floor s.marks.applied
  durable := s.marks.durable
  durableAt := s.marks.durableAt
  live := s.groups.map Group.upto
  alarm := s.writer.syncFailed.toNat + s.writer.fenced.toNat
  fenced := s.syncer.fenced
  mailbox := s.syncer.mailbox.map SyncMsg.msg
  doing := s.syncer.phase.doing
  birth := s.ghost.birth
  wal := s.ghost.wal
  synced := s.ghost.synced
  undone := {i | i ∈ s.ghost.undone}
  acked := {q | ∃ r ∈ s.ghost.replies, r.2.Commits q}
  failed := s.ghost.failed.map Entry.ticket

/-! ## Steps the protocol does not see -/

/-- Replies that report no commit. -/
theorem acked_append (rs rs' : List (Nat × Reply)) (h : ∀ r ∈ rs', ∀ q, ¬ r.2.Commits q) :
    {q | ∃ r ∈ rs ++ rs', r.2.Commits q} = {q | ∃ r ∈ rs, r.2.Commits q} := by
  ext q
  simp only [mem_append, Set.mem_ofPred_eq]
  constructor
  · rintro ⟨r, hr | hr, hq⟩
    · exact ⟨r, hr, hq⟩
    · exact absurd hq (h r hr q)
  · rintro ⟨r, hr, hq⟩
    exact ⟨r, .inl hr, hq⟩

variable {reply : Reply}

theorem proto_answer (s : State) (calls : List (Nat × Nat))
    (h : ∀ q, ¬ reply.Commits q) : (s.answer calls reply).proto = s.proto := by
  unfold State.answer State.proto
  rw [acked_append _ _ fun r hr q hq => h q (commits_of_replyCalls hr hq)]
  rfl

theorem proto_answer_setPhase (s : State) (calls : List (Nat × Nat)) (p : Phase)
    (h : ∀ q, ¬ reply.Commits q) :
    ((s.answer calls reply).setPhase p).proto = (s.setPhase p).proto :=
  proto_answer (s.setPhase p) calls h

/-- Phases that neither hold the applied mark back nor a group of their own. -/
def Phase.plain : Phase → Bool
  | .applied _ _ | .tracking _ => false
  | _ => true

theorem proto_setPhase {s : State} {p : Phase} (hs : s.writer.phase.plain = true)
    (hp : p.plain = true) : (s.setPhase p).proto = s.proto := by
  have hfloor : ∀ p : Phase, p.plain = true → ∀ n, p.floor n = n := by
    intro p hp n
    cases p <;> first | rfl | cases hp
  have hgroup : ∀ p : Phase, p.plain = true → p.group = [] := by
    intro p hp
    cases p <;> first | rfl | cases hp
  unfold State.proto State.groups
  rw [hfloor _ hs, hgroup _ hs, show (s.setPhase p).writer.phase = p from rfl, hfloor _ hp,
    hgroup _ hp]
  rfl

theorem proto_beginGroup (s : State) : (beginGroup s).proto = s.proto := by
  unfold beginGroup rotateRecent syncRecent
  split_ifs <;> rfl

theorem proto_syncEpoch (s : State) (epoch : Nat) :
    ({ s with writer := syncEpoch s.writer epoch } : State).proto = s.proto := by
  unfold syncEpoch
  split_ifs <;> rfl

/-! ## A group on its way to the store -/

theorem within_extra {extra : List Op} (h : extra.all extraOk = true) :
    Within (fun op => op.key.family = .extra) extra := by
  intro op hop
  have hok := all_eq_true.1 h op hop
  unfold extraOk at hok
  split at hok
  · rfl
  · rfl
  · rfl
  · cases hok

/-- The operations of a group's fresh hooks. -/
def Cx.built (cfg : Config) (next : Nat) (cx : Cx) : List Op :=
  buildOps cx.checked.fresh next cx.now cfg.archive cx.admission.ords

/-- The group is what the checks of a stamped group make, with seqs from `next` on. -/
structure Cx.Built (cfg : Config) (next : Nat) (cx : Cx) : Prop where
  checked : ∃ stored usage enforce items,
    cx.checked = dedupeCheck stored usage cx.now cx.admission.ords enforce cfg.quota items
  admission : ∃ store closed cached nextOrd max tenants,
    cx.admission = admitTenants store closed cached nextOrd max tenants
  extra : cx.extra.all extraOk = true
  fresh : cx.checked.fresh ≠ []
  ops : cx.ops = Deliveries.coalesce
    (cx.checked.dedupeOps ++ cx.built cfg next ++ cx.admission.ops ++ cx.extra)
  undo : cx.undo = [cx.checked.dedupeOps, cx.built cfg next]

namespace Cx.Built

variable {cfg : Config} {next : Nat} {cx : Cx}

theorem inDedupe (h : cx.Built cfg next) : InDedupe cx.checked.dedupeOps := by
  obtain ⟨stored, usage, enforce, items, heq⟩ := h.checked
  rw [heq]
  exact inDedupe_dedupeOps _ _ _ _ _ _ _

theorem within_admission (h : cx.Built cfg next) :
    Within (fun op => op.key.family = .tenant) cx.admission.ops := by
  obtain ⟨store, closed, cached, nextOrd, max, tenants, heq⟩ := h.admission
  rw [heq]
  exact within_admitOps _ _ _ _ _ _

theorem fresh_pos (h : cx.Built cfg next) : 0 < cx.checked.fresh.length :=
  length_pos_of_ne_nil h.fresh

variable {ops : List Op}

section

variable (h : cx.Built cfg next)
include h

variable {op : Op} {q : Nat}

/-- A group only touches rows of the hooks it numbers. -/
theorem undo_seq (hops : ops ∈ cx.undo)
    (hop : op ∈ ops) (hq : op.key.seq? = some q) :
    next ≤ q ∧ q < next + cx.checked.fresh.length := by
  rw [h.undo] at hops
  rcases mem_pair.1 hops with rfl | rfl
  · rw [Key.seq?_eq_some] at hq
    rcases h.inDedupe op hop with ⟨hf, -⟩ | hf <;> rw [hf] at hq <;> cases hq
  · exact buildOps_seq hop hq

theorem undo_plain (hops : ops ∈ cx.undo) (hop : op ∈ ops) (hk : op.key.family ≠ .shared) :
    op.merges = false := by
  rw [h.undo] at hops
  rcases mem_pair.1 hops with rfl | rfl
  · rcases h.inDedupe op hop with ⟨-, hm⟩ | hf
    · exact hm
    · exact absurd hf hk
  · rcases mem_buildOps hop with rfl | ⟨q, ⟨-, hm⟩ | hf, -⟩
    · rfl
    · exact hm
    · exact absurd hf hk

theorem undo_new (hops : ops ∈ cx.undo) :
    Within (fun op => op.key.family ≠ .dedupe → NewAt cx.now op) ops := by
  intro op hop hk
  rw [h.undo] at hops
  rcases mem_pair.1 hops with rfl | rfl
  · rcases h.inDedupe op hop with ⟨hf, -⟩ | hf
    · exact absurd hf hk
    · cases op with
      | put k => cases k <;> trivial
      | delete | merge => trivial
  · exact newAt_buildOps _ _ _ _ _ op hop

theorem commits (hq : (cx.reply next).Commits q) :
    next ≤ q ∧ q < next + cx.checked.fresh.length := by
  obtain ⟨stored, usage, enforce, items, heq⟩ := h.checked
  refine commits_reassemble ?_ hq
  rw [heq]
  exact dedupeCheck_marked _ _ _ _ _ _ _

end

end Cx.Built

/-- What the writer holds between two steps of a call, given its next seq, its last stamp and the
    applied mark. -/
def Phase.Ok (cfg : Config) (next : Nat) (lastAt : Ms) (applied : Nat) : Phase → Prop
  | .idle | .collecting _ | .tracking _ => True
  | .stamped _ now extra => lastAt ≤ now ∧ extra.all extraOk = true
  | .built cx => cx.Built cfg next ∧ lastAt ≤ cx.now
  | .applied cx _ =>
    cx.Built cfg next ∧ lastAt ≤ cx.now ∧ applied = next + cx.checked.fresh.length - 1
  | .extraOnly _ reply extra => (∀ q, ¬ reply.Commits q) ∧ extra.all extraOk = true
  | .redriving _ count ops adm now =>
    lastAt ≤ now ∧ (∃ store closed cached nextOrd max tenants,
      adm = admitTenants store closed cached nextOrd max tenants) ∧
    ∃ entries extra, count = entries.length ∧ extra.all extraOk = true ∧
      ops = redriveOps entries next now adm extra

/-- The writer's phase is sound, and a fenced writer is idle. -/
structure State.PhaseOk (cfg : Config) (s : State) : Prop where
  ok : s.writer.phase.Ok cfg s.writer.nextSeq s.writer.lastAt s.marks.applied
  busy : s.writer.phase ≠ .idle → s.writer.fenced = false

theorem State.PhaseOk.idle {cfg : Config} {s : State} (h : s.writer.phase = .idle) :
    s.PhaseOk cfg :=
  ⟨by rw [h]; trivial, fun hne => absurd h hne⟩

@[simp] theorem beginGroup_writer (s : State) : (beginGroup s).writer.nextSeq = s.writer.nextSeq ∧
    (beginGroup s).writer.lastAt = s.writer.lastAt ∧
    (beginGroup s).writer.fenced = s.writer.fenced ∧
    (beginGroup s).writer.phase = s.writer.phase ∧
    (beginGroup s).writer.unsynced = s.writer.unsynced := by
  unfold beginGroup rotateRecent syncRecent
  split_ifs <;> exact ⟨rfl, rfl, rfl, rfl, rfl⟩

@[simp] theorem syncEpoch_fields (w : WriterState) (epoch : Nat) :
    (syncEpoch w epoch).nextSeq = w.nextSeq ∧
    (syncEpoch w epoch).lastAt = w.lastAt ∧ (syncEpoch w epoch).fenced = w.fenced ∧
    (syncEpoch w epoch).phase = w.phase ∧ (syncEpoch w epoch).unsynced = w.unsynced := by
  unfold syncEpoch
  split_ifs <;> exact ⟨rfl, rfl, rfl, rfl, rfl⟩

/-- Calls refused one by one: errors are added to the replies, and nothing else changes. -/
theorem refuseGone_eq (gone : List (Nat × Reason)) (s : State) (calls : List Call) :
    ∃ rs, (∀ r ∈ rs, ∃ reason, r.2 = .error reason) ∧
      refuseGone gone s calls =
      { s with ghost := { s.ghost with replies := s.ghost.replies ++ rs } } := by
  induction calls generalizing s with
  | nil => exact ⟨[], by simp, by simp [refuseGone]⟩
  | cons c calls ih =>
    unfold refuseGone at ih ⊢
    rw [foldl_cons]
    cases hgone : gone.lookup c.id with
    | none => exact ih s
    | some reason =>
      obtain ⟨rs, hrs, heq⟩ := ih (s.answer [(c.id, c.items.length)] (.error reason))
      refine ⟨(c.id, .error reason) :: rs, forall_mem_cons.2 ⟨⟨reason, rfl⟩, hrs⟩, ?_⟩
      dsimp only
      rw [heq]
      simp [State.answer, replyCalls]

theorem proto_replies (s : State) {rs : List (Nat × Reply)}
    (h : ∀ r ∈ rs, ∃ reason, r.2 = .error reason) :
    ({ s with ghost := { s.ghost with replies := s.ghost.replies ++ rs } } : State).proto =
    s.proto := by
  unfold State.proto
  rw [acked_append]
  · rfl
  · intro r hr q hq
    obtain ⟨reason, heq⟩ := h r hr
    rw [heq] at hq
    exact Reply.not_commits_error _ _ hq

section Steps

variable {cfg : Config} {s t : State}

/-! ## The writer, up to the write -/

theorem begin_proto (h : begin_ s = some t) :
    t.proto = s.proto ∧ (s.PhaseOk cfg → t.PhaseOk cfg) := by
  unfold begin_ at h
  split at h
  next hphase hqueue =>
    dsimp only at h
    split_ifs at h with hf
    · cases h
      exact ⟨proto_answer _ _ (Reply.not_commits_error _), fun hs => ⟨hs.ok, hs.busy⟩⟩
    · cases h
      refine ⟨?_, fun hs => ⟨trivial, fun _ => ?_⟩⟩
      · rw [proto_setPhase (by simp [hphase, Phase.plain]) rfl, proto_beginGroup]
        rfl
      · simpa [State.setPhase] using hf
  · cases h

theorem drain_proto {gone : List (Nat × Reason)} (h : drain cfg s gone = some t) :
    t.proto = s.proto ∧ (s.PhaseOk cfg → t.PhaseOk cfg) := by
  unfold drain at h
  split at h
  next first hphase =>
    dsimp only at h
    generalize first :: drainCalls cfg first.items.length first.bytes s.queue = taken at h
    obtain ⟨rs, hrs, heq⟩ :=
      refuseGone_eq gone { s with queue := s.queue.drop (taken.length - 1) } taken
    rw [heq] at h
    split_ifs at h with hlive
    · cases h
      refine ⟨?_, fun hs => .idle rfl⟩
      rw [proto_setPhase (by simp [hphase, Phase.plain]) rfl, proto_replies _ hrs]
      rfl
    · cases h
      refine ⟨?_, fun hs => ⟨⟨le_max_right _ _, rfl⟩, fun _ => ?_⟩⟩
      · rw [proto_setPhase (by simp [hphase, Phase.plain]) rfl, proto_replies _ hrs]
        rfl
      · exact hs.busy (by rw [hphase]; simp)
  · cases h

variable {extra : List Op} {items : List Item} {reads : Bool}

theorem release_proto {id : Nat} (h : release s id items extra = some t) :
    t.proto = s.proto ∧ (s.PhaseOk cfg → t.PhaseOk cfg) := by
  unfold release at h
  split_ifs at h with hguard hf
  · cases h
    exact ⟨proto_answer _ _ (Reply.not_commits_error _), fun hs => ⟨hs.ok, hs.busy⟩⟩
  · cases h
    refine ⟨?_, fun hs => ⟨⟨?_, hguard.2.2⟩, fun _ => ?_⟩⟩
    · rw [proto_setPhase (by simp [hguard.1, Phase.plain]) rfl, proto_beginGroup]
    · simp [State.setPhase]
    · simpa [State.setPhase] using hf

/-- The protocol stands still or takes a step. -/
def Moves (fences stamps : Prop) (s t : State) : Prop :=
  t.proto = s.proto ∨ GroupCommit.Step fences stamps s.proto t.proto

variable {fences stamps : Prop} {now : Ms}

attribute [local simp] State.proto State.groups State.setPhase SyncPhase.doing SyncMsg.msg
  Phase.floor Phase.group WriterState.consume

/-- A reply of a group without fresh hooks reports no commit. -/
theorem not_commits_of_no_fresh {stored : Key → Option Val} {usage : Nat → Int}
    {ords : List (String × Nat)} {enforce : Bool} {quota : Quota} {first : Nat}
    {tagged : List (Option Reason)}
    (h : (dedupeCheck stored usage now ords enforce quota items).fresh = []) (q : Nat) :
    ¬ (Reply.ok (withRefused tagged (reassemble
      (dedupeCheck stored usage now ords enforce quota items).results first))).Commits q := by
  intro hq
  have := commits_reassemble (dedupeCheck_marked _ _ _ _ _ _ _) hq
  rw [h] at this
  simp only [length_nil] at this
  omega

/-- A reply of duplicates goes out at once, or waits for the groups applied so far. -/
theorem settleReply_proto (s : State) (calls : List (Nat × Nat)) {results : List Result}
    (hphase : s.writer.phase.plain = true) (h : ∀ q, ¬ (Reply.ok results).Commits q) :
    Moves fences stamps s ((settleReply s calls results).setPhase .idle) := by
  unfold settleReply
  split_ifs with hunsynced
  · right
    have hdup : {q | (Reply.ok results).Commits q} = ∅ := by
      ext q
      simpa using h q
    have hfloor : s.proto.applied = s.marks.applied := by
      show s.writer.phase.floor s.marks.applied = s.marks.applied
      cases hp : s.writer.phase <;> first | rfl | (rw [hp] at hphase; cases hphase)
    have hproto :
      ((s.submit ⟨s.marks.applied, s.writer.lastAt, calls, .ok results⟩).setPhase .idle).proto =
        { s.proto with
          mailbox := s.proto.mailbox ++ [.sync ⟨s.proto.applied, s.proto.clock, ∅⟩] } := by
      rw [proto_setPhase (s := s.submit _) hphase rfl, hfloor, ← hdup]
      simp [State.submit, Entry.ticket]
    rw [hproto]
    refine .duplicate ?_
    rw [hfloor]
    show s.marks.durable < s.marks.applied
    simpa [Marks.unsynced] using (Bool.and_eq_true_iff.1 hunsynced).1
  · left
    rw [proto_answer_setPhase _ _ _ h, proto_setPhase hphase rfl]

theorem checkGroup_proto {calls : List Call} (hphase : s.writer.phase.plain = true)
    (hnow : s.writer.lastAt ≤ now)
    (hextra : extra.all extraOk = true) (hfenced : s.writer.fenced = false) :
    Moves fences stamps s (checkGroup cfg s calls now extra) ∧
      (checkGroup cfg s calls now extra).PhaseOk cfg := by
  unfold checkGroup
  dsimp only
  split_ifs with hrefused hfresh hpipelined
  · refine ⟨.inl ?_, .idle rfl⟩
    rw [proto_answer_setPhase _ _ _ (Reply.not_commits_error _), proto_setPhase hphase rfl]
  · exact ⟨settleReply_proto s _ hphase (not_commits_of_no_fresh hfresh),
      .idle rfl⟩
  · exact ⟨.inl (proto_setPhase hphase rfl),
      ⟨⟨not_commits_of_no_fresh hfresh, hextra⟩, fun _ => hfenced⟩⟩
  · refine ⟨.inl (proto_setPhase hphase rfl), ⟨⟨?_, hnow⟩, fun _ => hfenced⟩⟩
    exact
      { checked := ⟨_, _, _, _, rfl⟩
        admission := ⟨_, _, _, _, _, _, rfl⟩
        extra := hextra
        fresh := hfresh
        ops := rfl
        undo := rfl }

theorem check_proto (hs : s.PhaseOk cfg) (h : check cfg s reads = some t) :
    Moves fences stamps s t ∧ t.PhaseOk cfg := by
  unfold check at h
  split at h
  next calls now extra hphase =>
    obtain ⟨hnow, hextra⟩ : s.writer.lastAt ≤ now ∧ extra.all extraOk = true := by
      have := hs.ok
      rw [hphase] at this
      exact this
    have hfenced := hs.busy (by rw [hphase]; simp)
    have hplain : (syncEpoch s.writer s.epoch).phase.plain = true := by
      simp [hphase, Phase.plain]
    have hproto := proto_syncEpoch s s.epoch
    generalize hs' : ({ s with writer := syncEpoch s.writer s.epoch } : State) = s' at h hproto
    split_ifs at h with hreads
    · cases h
      refine ⟨.inl ?_, .idle rfl⟩
      rw [proto_answer_setPhase _ _ _ (Reply.not_commits_error _),
        proto_setPhase (by rw [← hs']; exact hplain) rfl, hproto]
    · cases h
      have hgroup : Moves fences stamps s' (checkGroup cfg s' calls now extra) ∧
          (checkGroup cfg s' calls now extra).PhaseOk cfg :=
        checkGroup_proto (by rw [← hs']; exact hplain) (by rw [← hs']; simpa using hnow) hextra
          (by rw [← hs']; simpa using hfenced)
      unfold Moves at hgroup ⊢
      rwa [hproto] at hgroup
  · cases h

theorem redrive_proto {call : Nat} {entries : List RedriveEntry}
    (hs : s.PhaseOk cfg) (h : redrive cfg s call entries extra reads = some t) :
    t.proto = s.proto ∧ t.PhaseOk cfg := by
  unfold redrive at h
  dsimp only at h
  have hproto := proto_syncEpoch s s.epoch
  have herror : ∀ {calls : List (Nat × Nat)} {reason : Reason} {u : State}, u.proto = s.proto →
      u.PhaseOk cfg → (u.answer calls (.error reason)).proto = s.proto ∧
        (u.answer calls (.error reason)).PhaseOk cfg := by
    intro calls reason u hu hok
    exact ⟨by rw [proto_answer _ _ (Reply.not_commits_error _), hu], ⟨hok.ok, hok.busy⟩⟩
  split_ifs at h with hguard hf hreads hrefused
  · cases h
    exact herror rfl hs
  · cases h
    exact herror hproto ⟨by simpa using hs.ok, by simpa using hs.busy⟩
  · cases h
    exact herror hproto ⟨by simpa using hs.ok, by simpa using hs.busy⟩
  · cases h
    refine ⟨?_, ⟨⟨?_, ⟨_, _, _, _, _, _, rfl⟩, entries, extra, rfl, hguard.2, ?_⟩, fun _ => ?_⟩⟩
    · rw [proto_setPhase (by simp [hguard.1, Phase.plain]) rfl, hproto]
    · simp
    · simp
    · simpa using hf

theorem setApplied_proto (hs : s.PhaseOk cfg) (h : setApplied s = some t) :
    t.proto = s.proto ∧ t.PhaseOk cfg := by
  unfold setApplied at h
  split at h
  next hphase =>
    obtain ⟨hextra, rfl⟩ := guarded h
    have hok := hs.ok
    rw [hphase] at hok
    refine ⟨?_, ⟨⟨hok.1, hok.2, rfl⟩, fun _ => hs.busy (by rw [hphase]; simp)⟩⟩
    simp [hphase]
  · cases h

/-! ## The write -/

@[simp] theorem cachePut_fields (w : WriterState) (cache : List (String × Nat)) :
    (cachePut w cache).nextSeq = w.nextSeq ∧ (cachePut w cache).lastAt = w.lastAt ∧
    (cachePut w cache).unsynced = w.unsynced ∧ (cachePut w cache).fenced = w.fenced ∧
    (cachePut w cache).syncFailed = w.syncFailed := by
  unfold cachePut
  split_ifs <;> exact ⟨rfl, rfl, rfl, rfl, rfl⟩

theorem mem_acked_append {rs : List (Nat × Reply)} {calls : List (Nat × Nat)} {q : Nat}
    (h : ∃ r ∈ rs ++ replyCalls calls reply, r.2.Commits q) :
    (∃ r ∈ rs, r.2.Commits q) ∨ reply.Commits q := by
  obtain ⟨r, hr, hq⟩ := h
  rcases mem_append.1 hr with hr | hr
  · exact .inl ⟨r, hr, hq⟩
  · exact .inr (commits_of_replyCalls hr hq)

theorem Moves.of_eq {u : GroupCommit.State} (hu : GroupCommit.Step fences stamps s.proto u)
    (h : t.proto = u) : Moves fences stamps s t :=
  .inr (h ▸ hu)

variable {ok : Bool}

section

variable (hs : s.PhaseOk cfg)
include hs

variable {cx : Cx}

/-- The write of a group that is left to the syncer. -/
theorem write_group_proto {prev : Nat}
    (hphase : s.writer.phase = .applied cx prev) (hstamps : stamps → s.marks.durableAt ≤ cx.now)
    (h : write s ok = some t) : Moves fences stamps s t ∧ t.PhaseOk cfg := by
  have hok := hs.ok
  rw [hphase] at hok
  obtain ⟨hbuilt, hnow, happlied⟩ := hok
  have hfenced := hs.busy (by rw [hphase]; simp)
  unfold write at h
  rw [hphase] at h
  cases ok with
  | true =>
    cases h
    refine ⟨Moves.of_eq (.land cx.checked.fresh.length cx.now
      {q | (cx.reply s.writer.nextSeq).Commits q} hbuilt.fresh_pos hnow
      (fun q hq => hbuilt.commits hq) hstamps) ?_, ⟨trivial, fun _ => ?_⟩⟩
    · simp [GroupCommit.State.land, State.land, State.commit, State.submit,
        Entry.ticket, hphase, happlied]
      rfl
    · simpa [State.submit, State.land] using hfenced
  | false =>
    cases h
    refine ⟨Moves.of_eq (.skip cx.checked.fresh.length cx.now hnow) ?_, .idle rfl⟩
    rw [proto_answer_setPhase _ _ _ (Reply.not_commits_error _)]
    simp [hphase]

/-- The synced write of a release. -/
theorem write_release_proto (hphase : s.writer.phase = .built cx)
    (hfences : fences → ok = true → s.writer.syncFailed = false)
    (h : write s ok = some t) : Moves fences stamps s t ∧ t.PhaseOk cfg := by
  have hok := hs.ok
  rw [hphase] at hok
  obtain ⟨hbuilt, hnow⟩ := hok
  have hfenced := hs.busy (by rw [hphase]; simp)
  unfold write at h
  rw [hphase] at h
  dsimp only at h
  split_ifs at h with hextra hwrite
  · cases h
    refine ⟨Moves.of_eq (.landSynced cx.checked.fresh.length cx.now
      {q | ∃ r ∈ s.ghost.replies ++ replyCalls cx.calls (cx.reply s.writer.nextSeq),
        r.2.Commits q} hnow ?_ ?_) ?_, .idle rfl⟩
    · intro q hq
      exact (mem_acked_append hq).imp_right hbuilt.commits
    · intro hf
      show s.writer.syncFailed.toNat + s.writer.fenced.toNat = 0
      rw [hfences hf hwrite, hfenced]
      rfl
    · simp [GroupCommit.State.landSynced, State.land, State.commit, State.answer, hphase]
      rfl
  · cases h
    refine ⟨Moves.of_eq (.skip cx.checked.fresh.length cx.now hnow) ?_, .idle rfl⟩
    rw [proto_answer_setPhase _ _ _ (Reply.not_commits_error _)]
    simp [hphase]

/-- The synced write of a release that has only its extra operations. -/
theorem write_extra_proto {calls : List (Nat × Nat)} (hdisk : s.ghost.synced ≤ s.ghost.wal)
    (hphase : s.writer.phase = .extraOnly calls reply extra) (h : write s ok = some t) :
    Moves fences stamps s t ∧ t.PhaseOk cfg := by
  have hok := hs.ok
  rw [hphase] at hok
  have hplain : s.writer.phase.plain = true := by rw [hphase]; rfl
  unfold write at h
  rw [hphase] at h
  cases ok with
  | true =>
    cases h
    refine ⟨Moves.of_eq (.quiet (s.ghost.wal + 1) (s.ghost.wal + 1) (Nat.le_succ _)
      (Nat.le_succ_of_le hdisk) le_rfl) ?_, .idle rfl⟩
    rw [proto_answer_setPhase _ _ _ hok.1, proto_setPhase (s := s.commit _ _) hplain rfl]
    rfl
  | false =>
    cases h
    refine ⟨.inl ?_, .idle rfl⟩
    rw [proto_answer_setPhase _ _ _ (Reply.not_commits_error _), proto_setPhase hplain rfl]

/-- The synced write of an archive replay. -/
theorem write_redrive_proto {call count : Nat} {ops : List Op} {adm : Admission}
    (hphase : s.writer.phase = .redriving call count ops adm now)
    (hfences : fences → ok = true → s.writer.syncFailed = false)
    (h : write s ok = some t) : Moves fences stamps s t ∧ t.PhaseOk cfg := by
  have hok := hs.ok
  rw [hphase] at hok
  have hfenced := hs.busy (by rw [hphase]; simp)
  unfold write at h
  rw [hphase] at h
  cases ok with
  | true =>
    cases h
    refine ⟨Moves.of_eq (.landSynced count now s.proto.acked hok.1 (fun q hq => .inl hq) ?_) ?_,
      .idle rfl⟩
    · intro hf
      show s.writer.syncFailed.toNat + s.writer.fenced.toNat = 0
      rw [hfences hf rfl, hfenced]
      rfl
    · rw [proto_answer_setPhase _ _ _ (Reply.not_commits_count _)]
      simp [GroupCommit.State.landSynced, State.commit, hphase]
      rfl
  | false =>
    cases h
    refine ⟨Moves.of_eq (.skip count now hok.1) ?_, .idle rfl⟩
    rw [proto_answer_setPhase _ _ _ (Reply.not_commits_error _)]
    simp [hphase]

end

theorem unsyncedAbove_map (gs : List Group) (durable : Nat) :
    (unsyncedAbove gs durable).map Group.upto =
      (gs.map Group.upto).takeWhile (fun u => durable < u) := by
  induction gs with
  | nil => rfl
  | cons g gs ih =>
    unfold unsyncedAbove at ih ⊢
    by_cases hg : durable < g.upto
    · rw [takeWhile_cons_of_pos (by simpa using hg), map_cons, map_cons,
        takeWhile_cons_of_pos (by simpa using hg), ih]
    · rw [takeWhile_cons_of_neg (by simpa using hg), map_cons,
        takeWhile_cons_of_neg (by simpa using hg), map_nil]

theorem track_proto (hseq : GroupCommit.SeqInv s.proto) (h : track s = some t) :
    Moves fences stamps s t ∧ t.PhaseOk cfg := by
  unfold track at h
  split at h
  next g hphase =>
    cases h
    have hlive : s.proto.live = g.upto :: s.writer.unsynced.map Group.upto := by
      simp [hphase]
    have hsorted := hseq.sorted
    rw [hlive] at hsorted
    refine ⟨Moves.of_eq (.trim (g.upto :: (s.writer.unsynced.map Group.upto).takeWhile
      (fun u => s.marks.durable < u)) ?_ ?_) ?_, .idle rfl⟩
    · rw [hlive]
      exact (takeWhile_sublist _).cons_cons _
    · intro u hu hlt
      rw [hlive] at hu
      rcases mem_cons.1 hu with rfl | hu
      · exact mem_cons_self
      · exact mem_cons_of_mem _
          (GroupCommit.mem_takeWhile_of_sorted (pairwise_cons.1 hsorted).2 hu hlt)
    · rw [← unsyncedAbove_map]
      simp [hphase]
  · cases h

/-! ## The fence -/

/-- The batches a fence deletes, on the node and in the protocol. -/
theorem victims_proto (hphase : s.writer.phase = .idle) (i : Nat) :
    i ∈ s.proto.victims ↔ i ∈ (unsyncedAbove s.writer.unsynced s.marks.durable).filterMap
      (fun g => (s.ghost.birth g.upto).map (·.index)) := by
  have hlive : s.proto.live.takeWhile (fun u => s.marks.durable < u) =
      (unsyncedAbove s.writer.unsynced s.marks.durable).map Group.upto := by
    rw [unsyncedAbove_map]
    simp [hphase]
  show (∃ u ∈ s.proto.live.takeWhile (fun u => s.marks.durable < u), _) ↔ _
  rw [hlive]
  simp only [mem_filterMap, mem_map, Option.map_eq_some_iff]
  constructor
  · rintro ⟨_, ⟨g, hg, rfl⟩, b, hb, rfl⟩
    exact ⟨g, hg, b, hb, rfl⟩
  · rintro ⟨g, hg, b, hb, rfl⟩
    exact ⟨_, ⟨g, hg, rfl⟩, b, hb, rfl⟩

/-- A fence is the protocol's when its write succeeds, and nothing when it fails. -/
theorem fence_proto (hdisk : s.ghost.synced ≤ s.ghost.wal)
    (hphase : s.writer.phase = .idle) (hfenced : s.writer.fenced = true) :
    Moves fences stamps s (fence s ok) := by
  unfold fence
  cases ok with
  | true =>
    dsimp only
    generalize hops : undoOps (unsyncedAbove s.writer.unsynced s.marks.durable) = ops
    refine Moves.of_eq (.fence (if ops = [] then s.ghost.wal else s.ghost.wal + 1)
      (if ops = [] then s.ghost.synced else s.ghost.wal + 1) ?_ ?_ ?_ ?_) ?_
    · show 0 < s.writer.syncFailed.toNat + s.writer.fenced.toNat
      rw [hfenced]
      exact Nat.succ_pos _
    · show s.ghost.wal ≤ _
      split_ifs <;> omega
    · show s.ghost.synced ≤ _
      split_ifs <;> omega
    · split_ifs <;> omega
    · have hvictims : {i | i ∈ (unsyncedAbove s.writer.unsynced s.marks.durable).filterMap
          (fun g => (s.ghost.birth g.upto).map (·.index)) ++ s.ghost.undone} =
          s.proto.undone ∪ s.proto.victims := by
        ext i
        show i ∈ (_ ++ s.ghost.undone : List Nat) ↔ i ∈ s.ghost.undone ∨ i ∈ s.proto.victims
        rw [victims_proto hphase, mem_append, or_comm]
      unfold GroupCommit.State.fence
      rw [← hvictims]
      simp [hphase, hfenced]
  | false => exact .inl rfl

theorem fence_phaseOk (hphase : s.writer.phase = .idle) : (fence s ok).PhaseOk cfg := by
  have hidle : (fence s ok).writer.phase = .idle := by
    cases ok <;> exact hphase
  exact ⟨by rw [hidle]; trivial, fun hne => absurd hidle hne⟩

theorem syncFailed_proto (hfence : GroupCommit.FenceInv s.proto)
    (hdisk : s.ghost.synced ≤ s.ghost.wal) (h : syncFailed s ok = some t) :
    Moves fences stamps s t ∧ t.PhaseOk cfg := by
  obtain ⟨hguard, rfl⟩ := guarded h
  have hfenced : s.writer.fenced = false := by
    have hone := (hfence.fenced_of_alarm (by
      show 0 < s.writer.syncFailed.toNat + s.writer.fenced.toNat
      rw [hguard.2]
      exact Nat.add_pos_left Nat.one_pos _)).2.1
    change s.writer.syncFailed.toNat + s.writer.fenced.toNat = 1 at hone
    rw [hguard.2] at hone
    cases hf : s.writer.fenced with
    | false => rfl
    | true =>
      rw [hf] at hone
      cases hone
  generalize hu : ({ s with writer := { s.writer with
      ords := [], ordsEpoch := none, recent := ⟨∅, ∅⟩, recentGenAt := s.mono, recentSince := s.mono,
      syncFailed := false, fenced := true } } : State) = u
  have hproto : u.proto = s.proto := by
    rw [← hu]
    simp [hguard.2, hfenced]
  have hphase : u.writer.phase = .idle := by rw [← hu]; exact hguard.1
  have hstep : Moves fences stamps u (fence u ok) :=
    fence_proto (by rw [← hu]; exact hdisk) hphase (by rw [← hu])
  unfold Moves at hstep ⊢
  rw [hproto] at hstep
  exact ⟨hstep, fence_phaseOk hphase⟩

theorem retryFence_proto (hdisk : s.ghost.synced ≤ s.ghost.wal)
    (h : retryFence s ok = some t) : Moves fences stamps s t ∧ t.PhaseOk cfg := by
  obtain ⟨hguard, rfl⟩ := guarded h
  exact ⟨fence_proto hdisk hguard.1 hguard.2, fence_phaseOk hguard.1⟩

/-! ## The syncer -/

theorem syncerTake_proto (hfences : fences → s.syncer.fenced = true →
      ∀ e ms, s.syncer.mailbox = .sync e :: ms →
      behindResume ms = []) (h : syncerTake s = some t) : Moves fences stamps s t := by
  unfold syncerTake at h
  split at h
  next seq time ms hphase hbox =>
    cases h
    refine Moves.of_eq (.takeResume seq time (ms.map SyncMsg.msg) ?_ ?_) ?_
    · simp [hphase]
    · simp [hbox]
    · simp
  next e ms hphase hbox =>
    cases h
    refine Moves.of_eq (.takeSync e.ticket (ms.map SyncMsg.msg) ?_ ?_ ?_) ?_
    · simp [hphase]
    · simp [hbox]
    · intro hf hfenced
      have hbehind := hfences hf hfenced e ms hbox
      show GroupCommit.behind (s.syncer.mailbox.map SyncMsg.msg) = []
      rw [hbox, behind_map, behindResume, hbehind, map_nil]
    · have hes : e.ticket :: GroupCommit.tickets (ms.map SyncMsg.msg) =
          (e :: entries ms).map Entry.ticket := by
        rw [tickets_map, map_cons]
      have hcover := cover_map (e :: entries ms)
      rw [hes, rest_map]
      rcases s.proto.taken_cases ((e :: entries ms).map Entry.ticket) with
        ⟨hf, he⟩ | ⟨hf, hle, he⟩ | ⟨hf, hlt, he⟩
      · change s.syncer.fenced = true at hf
        rw [he]
        simp [hf]
      · change s.syncer.fenced = false at hf
        rw [hcover] at hle
        change _ ≤ s.marks.durable at hle
        rw [he]
        simp [hf, hle]
      · change s.syncer.fenced = false at hf
        rw [hcover] at hlt
        change s.marks.durable < _ at hlt
        rw [he]
        simp [hf, not_le.2 hlt]
  · cases h

theorem syncerSync_proto (hfence : GroupCommit.FenceInv s.proto)
    (hfences : fences → ok = false → ∀ e ∈ entries s.syncer.mailbox ++ s.syncer.phase.entries,
      ∀ q ∈ e.reply.seqs, s.marks.durable < q) (h : syncerSync s ok = some t) :
        Moves fences stamps s t := by
  unfold syncerSync at h
  split at h
  next es start hphase =>
    have hdoing : s.proto.doing = .syncing (es.map Entry.ticket) start := by
      simp [hphase]
    cases ok with
    | true =>
      cases h
      refine Moves.of_eq (.syncOk _ _ hdoing) ?_
      rw [cover_map]
      simp
    | false =>
      cases h
      refine Moves.of_eq (.syncFail _ _ hdoing ?_) ?_
      · intro hf k hk q hq
        have hwaiting : s.proto.waiting =
            (entries s.syncer.mailbox ++ s.syncer.phase.entries).map Entry.ticket := by
          rw [GroupCommit.State.waiting, hdoing, map_append, hphase]
          simp [tickets_map, Doing.tickets, SyncPhase.entries]
        rw [hwaiting] at hk
        obtain ⟨e, he, rfl⟩ := mem_map.1 hk
        exact hfences hf rfl e he q hq
      · have hmode := hfence.mode
        rw [hdoing] at hmode
        have halarm := (hfence.of_not_fenced hmode).1
        have hfailed : s.writer.syncFailed = false := by
          change s.writer.syncFailed.toNat + s.writer.fenced.toNat = 0 at halarm
          cases hsf : s.writer.syncFailed with
          | false => rfl
          | true =>
            rw [hsf] at halarm
            exact absurd halarm (by simp)
        simp [hfailed, Nat.add_comm]
  · cases h

theorem syncerAnswer_proto (h : syncerAnswer s = some t) : Moves fences stamps s t := by
  unfold syncerAnswer at h
  split at h
  next error hphase =>
    cases h
    refine Moves.of_eq (.done error.isSome ?_) ?_
    · simp [hphase]
    · simp
  next e es error hphase =>
    cases h
    cases error with
    | none =>
      refine Moves.of_eq (.answer e.ticket (es.map Entry.ticket)
        {q | ∃ r ∈ s.ghost.replies ++ Syncer.answer e none, r.2.Commits q} ?_ ?_) ?_
      · simp [hphase]
      · exact fun q hq => mem_acked_append hq
      · simp
    | some reason =>
      refine Moves.of_eq (.refuse e.ticket (es.map Entry.ticket) ?_) ?_
      · simp [hphase]
      · have hacked := acked_append s.ghost.replies (Syncer.answer e (some reason))
          fun r hr q hq => Reply.not_commits_error reason q (commits_of_replyCalls hr hq)
        unfold State.proto
        rw [hacked]
        simp
  · cases h

section

variable (hs : s.PhaseOk cfg)
include hs

theorem State.PhaseOk.of_eq (hphase : t.writer.phase = s.writer.phase)
    (hnext : t.writer.nextSeq = s.writer.nextSeq) (hlast : t.writer.lastAt = s.writer.lastAt)
    (happlied : t.marks.applied = s.marks.applied) (hfenced : t.writer.fenced = s.writer.fenced) :
    t.PhaseOk cfg :=
  ⟨by rw [hphase, hnext, hlast, happlied]; exact hs.ok, by rw [hphase, hfenced]; exact hs.busy⟩

end

/-! ## Callers, sweeper and dispatch -/

/-- The batch an event writes. -/
def written (s : State) : Event → List Op
  | .write true =>
    match s.writer.phase with
    | .applied cx _ => cx.ops
    | .built cx => cx.ops
    | .extraOnly _ _ extra => extra
    | .redriving _ _ ops _ _ => ops
    | _ => []
  | .expireDedupe true => if s.writer.fenced then [] else (expireOps s.store s.sweep).1
  | .laneWrite true => s.dispatch.laneOps
  | .claimWrite true => Deliveries.claim (s.dispatch.dues.map Job.due)
  | .flush i true =>
    match s.dispatch.pending[i]? with
    | some batch => Deliveries.coalesce (Lanes.expand s.store s.wall s.marks.durable [] batch)
    | none => []
  | .recover => Deliveries.recoverInflight s.store s.wall
  | _ => []

/-- The events of the dispatch pipeline. -/
def Event.dispatches : Event → Bool
  | .scanClock | .scanMark | .scanClose | .laneRead _ _ | .laneWrite _ | .take _ _ _
    _ | .claimWrite _
  | .result _ _ | .flush _ _ | .recover => true
  | _ => false

/-- The events of the other processes. -/
def Event.outside : Event → Bool
  | .tick _ _ | .gate _ | .prepare _ _ | .prefetch _ | .enqueue _ | .sweepScan _ | .expireDedupe
    _ | .scanClock
  | .scanMark | .scanClose | .laneRead _ _ | .laneWrite _ | .take _ _ _ _ | .claimWrite _
  | .result _ _ | .flush _ _ | .recover => true
  | _ => false

/-- The part of the node that only the writer and the syncer change, and what the other processes
    may do to the log. -/
structure Aside (s t : State) : Prop where
  marks : t.marks = s.marks
  syncer : t.syncer = s.syncer
  phase : t.writer.phase = s.writer.phase
  nextSeq : t.writer.nextSeq = s.writer.nextSeq
  lastAt : t.writer.lastAt = s.writer.lastAt
  unsynced : t.writer.unsynced = s.writer.unsynced
  fenced : t.writer.fenced = s.writer.fenced
  syncFailed : t.writer.syncFailed = s.writer.syncFailed
  replies : t.ghost.replies = s.ghost.replies
  failed : t.ghost.failed = s.ghost.failed
  undone : t.ghost.undone = s.ghost.undone
  birth : t.ghost.birth = s.ghost.birth
  wal : s.ghost.wal ≤ t.ghost.wal
  synced : s.ghost.synced ≤ s.ghost.wal → s.ghost.synced ≤ t.ghost.synced ∧
    t.ghost.synced ≤ t.ghost.wal

/-- The fields of `Aside`, with the log as it is. -/
def State.core (s : State) :=
  (s.marks, s.syncer, s.writer, s.ghost.replies, s.ghost.failed, s.ghost.undone, s.ghost.birth,
    s.ghost.wal, s.ghost.synced)

theorem Aside.of_core (h : t.core = s.core) : Aside s t := by
  simp only [State.core, Prod.mk.injEq] at h
  obtain ⟨h1, h2, h3, h4, h5, h6, h7, h8, h9⟩ := h
  exact ⟨h1, h2, by rw [h3], by rw [h3], by rw [h3], by rw [h3], by rw [h3], by rw [h3], h4, h5, h6,
    h7, by rw [h8], by rw [h8, h9]; exact fun hle => ⟨le_rfl, hle⟩⟩

theorem Aside.commit (h : Aside s t) (ops : List Op) (sync : Bool) : Aside s (t.commit ops sync) :=
  { h with
    wal := Nat.le_succ_of_le h.wal
    synced := by
      intro hle
      have hs := h.synced hle
      show s.ghost.synced ≤ (if sync then t.ghost.wal + 1 else t.ghost.synced) ∧
        (if sync then t.ghost.wal + 1 else t.ghost.synced) ≤ t.ghost.wal + 1
      split_ifs <;> omega }

variable {e : Event}

/-- The events of the syncer. -/
def Event.syncs : Event → Bool
  | .syncerTake | .syncerSync _ | .syncerAnswer => true
  | _ => false

/-- An event of the syncer changes the durable mark, its own state and answers, and tells the writer
    of a failure. -/
theorem syncer_cases (he : e.syncs = true) (h : step cfg s e = some t) :
    ∃ marks syncer syncFailed synced replies failed, t = { s with
      marks, syncer
      writer := { s.writer with syncFailed }
      ghost := { s.ghost with synced, replies, failed } } ∧ marks.applied = s.marks.applied := by
  cases e with
  | syncerTake =>
    simp only [step, syncerTake] at h
    split at h <;> cases h
    all_goals exact ⟨_, _, _, _, _, _, rfl, rfl⟩
  | syncerSync =>
    simp only [step, syncerSync] at h
    split at h
    · split_ifs at h <;> cases h <;> exact ⟨_, _, _, _, _, _, rfl, rfl⟩
    · cases h
  | syncerAnswer =>
    simp only [step, syncerAnswer] at h
    split at h <;> cases h
    all_goals exact ⟨_, _, _, _, _, _, rfl, rfl⟩
  | _ => cases he

theorem syncer_phaseOk (he : e.syncs = true) (h : step cfg s e = some t) (hs : s.PhaseOk cfg) :
    t.PhaseOk cfg := by
  obtain ⟨marks, syncer, told, synced, replies, failed, rfl, happlied⟩ := syncer_cases he h
  exact hs.of_eq rfl rfl rfl happlied rfl

/-- An event of the pipeline changes the pipeline, and writes its batch. -/
theorem dispatch_cases (he : e.dispatches = true) (h : step cfg s e = some t) :
    (∃ d, written s e = [] ∧ t = { s with dispatch := d }) ∨
      ∃ d claimed sync, t = { s.commit (written s e) sync with
        dispatch := d
        ghost := { (s.commit (written s e) sync).ghost with claimed } } := by
  cases e with
  | scanClock =>
    simp only [step, scanClock] at h
    split at h <;> cases h
    exact .inl ⟨_, rfl, rfl⟩
  | scanMark =>
    simp only [step, scanMark] at h
    split at h <;> cases h
    all_goals exact .inl ⟨_, rfl, rfl⟩
  | scanClose =>
    simp only [step, scanClose] at h
    split at h <;> cases h
    exact .inl ⟨_, rfl, rfl⟩
  | laneRead =>
    simp only [step, laneRead] at h
    split at h <;> cases h
    exact .inl ⟨_, rfl, rfl⟩
  | laneWrite ok =>
    cases h
    cases ok with
    | false => exact .inl ⟨_, rfl, rfl⟩
    | true => exact .inr ⟨_, _, false, rfl⟩
  | take =>
    simp only [step, take] at h
    split at h <;> cases h
    exact .inl ⟨_, rfl, rfl⟩
  | claimWrite ok =>
    cases ok with
    | false =>
      cases h
      exact .inl ⟨_, rfl, rfl⟩
    | true =>
      cases h
      exact .inr ⟨_, _, false, rfl⟩
  | result =>
    obtain ⟨j, -, rfl⟩ := Option.map_eq_some_iff.1 h
    exact .inl ⟨_, rfl, rfl⟩
  | flush i ok =>
    obtain ⟨batch, hbatch, rfl⟩ := Option.map_eq_some_iff.1 h
    cases ok with
    | false => exact .inl ⟨_, rfl, rfl⟩
    | true =>
      simp only [written, hbatch]
      exact .inr ⟨_, _, false, rfl⟩
  | recover =>
    cases h
    exact .inr ⟨_, _, true, rfl⟩
  | _ => cases he

theorem outside_aside (he : e.outside = true) (h : step cfg s e = some t) : Aside s t := by
  cases e with
  | tick =>
    obtain ⟨-, rfl⟩ := guarded h
    exact .of_core rfl
  | gate | prepare | sweepScan =>
    cases h
    exact .of_core rfl
  | enqueue | prefetch =>
    obtain ⟨c, -, rfl⟩ := Option.map_eq_some_iff.1 h
    exact .of_core rfl
  | expireDedupe =>
    simp only [step, expireDedupe] at h
    split_ifs at h
    · cases h
      exact .of_core rfl
    · cases h
      -- Only the writer's own memory of the deleted keys changes beside the store.
      have hc := (Aside.of_core (s := s) rfl).commit (expireOps s.store s.sweep).1 false
      exact ⟨rfl, rfl, rfl, rfl, rfl, rfl, rfl, rfl, rfl, rfl, rfl, rfl, hc.wal, hc.synced⟩
  | begin_ | drain | release | check | setApplied | write | track | redrive | syncFailed
  | retryFence
  | syncerTake | syncerSync | syncerAnswer => cases he
  | _ =>
    rcases dispatch_cases rfl h with ⟨d, -, rfl⟩ | ⟨d, claimed, sync, rfl⟩
    · exact .of_core rfl
    · have hc := (Aside.of_core (s := s) rfl).commit [] sync
      exact ⟨rfl, rfl, rfl, rfl, rfl, rfl, rfl, rfl, rfl, rfl, rfl, rfl, hc.wal, hc.synced⟩

theorem Aside.moves (h : Aside s t) (hdisk : s.ghost.synced ≤ s.ghost.wal) :
    Moves fences stamps s t := by
  have hsynced := h.synced hdisk
  refine Moves.of_eq (.quiet t.ghost.wal t.ghost.synced h.wal hsynced.1 hsynced.2) ?_
  unfold State.proto State.groups
  rw [h.marks, h.syncer, h.phase, h.nextSeq, h.lastAt, h.unsynced, h.fenced,
    h.syncFailed, h.replies, h.failed, h.undone, h.birth]

theorem Aside.phaseOk (h : Aside s t) (hs : s.PhaseOk cfg) : t.PhaseOk cfg :=
  hs.of_eq h.phase h.nextSeq h.lastAt (by rw [h.marks]) h.fenced

/-! ## Every run -/

/-- Whether the write of this phase puts new hooks on disk itself. -/
def Phase.syncs : Phase → Bool
  | .built _ | .redriving _ _ _ _ _ => true
  | _ => false

/-- What the fence assumes of the step: no synced batch is written between a failed fsync and its
    fence, no record of a ticket is durable when its fsync fails, and a fenced syncer takes nothing
    from behind the `resume`. -/
def FenceOk (s : State) : Event → Prop
  | .write true => s.writer.phase.syncs = true → s.writer.syncFailed = false
  | .syncerTake => s.syncer.fenced = true → overtaken s.syncer.mailbox = []
  | .syncerSync false =>
    ∀ e ∈ entries s.syncer.mailbox ++ s.syncer.phase.entries, ∀ q ∈ e.reply.seqs,
      s.marks.durable < q
  | _ => True

instance FenceOk.decidable (s : State) (e : Event) : Decidable (FenceOk s e) := by
  unfold FenceOk
  split <;> infer_instance

/-- The group being written is not stamped before the durable mark's stamp. -/
def State.Stamped (s : State) : Prop :=
  ∀ cx prev, s.writer.phase = .applied cx prev → s.marks.durableAt ≤ cx.now

/-- What every step keeps, whatever fails. -/
structure Sound (cfg : Config) (s : State) : Prop where
  phase : s.PhaseOk cfg
  seqs : GroupCommit.SeqInv s.proto
  fence : GroupCommit.FenceInv s.proto
  acks : GroupCommit.AckInv s.proto
  disk : GroupCommit.SyncInv s.proto

/-- The node refines the protocol: each of its steps is one of the protocol, or changes nothing the
    protocol sees. -/
theorem step_proto (hs : Sound cfg s) (hfences : fences → FenceOk s e)
    (hstamps : stamps → s.Stamped) (h : step cfg s e = some t) :
    Moves fences stamps s t ∧ t.PhaseOk cfg := by
  have hdisk : s.ghost.synced ≤ s.ghost.wal := hs.disk.synced_le
  by_cases he : e.outside = true
  · have haside := outside_aside he h
    exact ⟨haside.moves hdisk, haside.phaseOk hs.phase⟩
  cases e with
  | begin_ =>
    obtain ⟨hp, hok⟩ := begin_proto h
    exact ⟨.inl hp, hok hs.phase⟩
  | drain =>
    obtain ⟨hp, hok⟩ := drain_proto h
    exact ⟨.inl hp, hok hs.phase⟩
  | release =>
    obtain ⟨hp, hok⟩ := release_proto h
    exact ⟨.inl hp, hok hs.phase⟩
  | check => exact check_proto hs.phase h
  | setApplied =>
    obtain ⟨hp, hok⟩ := setApplied_proto hs.phase h
    exact ⟨.inl hp, hok⟩
  | write =>
    cases hphase : s.writer.phase with
    | applied cx prev =>
      exact write_group_proto hs.phase hphase (fun hst => hstamps hst cx prev hphase) h
    | built =>
      refine write_release_proto hs.phase hphase (fun hf hok => ?_) h
      subst hok
      exact hfences hf (by rw [hphase]; rfl)
    | extraOnly => exact write_extra_proto hs.phase hdisk hphase h
    | redriving =>
      refine write_redrive_proto hs.phase hphase (fun hf hok => ?_) h
      subst hok
      exact hfences hf (by rw [hphase]; rfl)
    | _ =>
      simp only [step, write, hphase] at h
      cases h
  | track => exact track_proto hs.seqs h
  | redrive =>
    obtain ⟨hp, hok⟩ := redrive_proto hs.phase h
    exact ⟨.inl hp, hok⟩
  | syncFailed => exact syncFailed_proto hs.fence hdisk h
  | retryFence => exact retryFence_proto hdisk h
  | syncerTake =>
    refine ⟨syncerTake_proto (fun hf hfenced e ms hbox => ?_) h, syncer_phaseOk rfl h hs.phase⟩
    have hok := hfences hf hfenced
    rwa [hbox] at hok
  | syncerSync =>
    refine ⟨syncerSync_proto hs.fence (fun hf hok => ?_) h, syncer_phaseOk rfl h hs.phase⟩
    subst hok
    exact hfences hf
  | syncerAnswer => exact ⟨syncerAnswer_proto h, syncer_phaseOk rfl h hs.phase⟩
  | _ => exact absurd rfl he

theorem Moves.protocol (h : Moves fences stamps s t) (hdisk : s.ghost.synced ≤ s.ghost.wal) :
    GroupCommit.Step fences stamps s.proto t.proto := by
  rcases h with h | h
  · rw [h]
    exact .quiet s.proto.wal s.proto.synced le_rfl le_rfl hdisk
  · exact h

theorem Sound.step (hs : Sound cfg s) (h : step cfg s e = some t) : Sound cfg t := by
  obtain ⟨hmoves, hphase⟩ : Moves False False s t ∧ t.PhaseOk cfg :=
    step_proto hs False.elim False.elim h
  have hproto := hmoves.protocol hs.disk.synced_le
  exact ⟨hphase, hs.seqs.step hproto, hs.fence.step hproto, hs.acks.step hs.seqs hs.fence hproto,
    hs.disk.step hs.seqs hproto⟩

theorem bootSeq_pos (store : Store) : 0 < bootSeq store := by
  unfold bootSeq
  split <;> omega

theorem boot_level {store : Store} {closed : List String} {wall mono : Ms} {v : Nat} {x : Int}
    (h : GroupCommit.Level (boot store closed wall mono).proto v x) : v = bootSeq store - 1 := by
  cases h with
  | durable => rfl
  | ticket h | resume h => cases h

theorem Sound.boot (store : Store) (closed : List String) (wall mono : Ms) :
    Sound cfg (boot store closed wall mono) := by
  have hpos := bootSeq_pos store
  have hborn : ∀ {q b}, (Node.boot store closed wall mono).proto.birth q = some b → False := by
    intro q b hb
    cases hb
  have hlive : ∀ {u}, u ∈ (Node.boot store closed wall mono).proto.live → False := by
    intro u hu
    cases hu
  refine ⟨.idle rfl, ?_, ⟨rfl, trivial⟩, ?_, ?_⟩
  · exact
      { next_pos := hpos
        applied_lt := Nat.sub_lt hpos Nat.one_pos
        level_lt := fun hv => by rw [boot_level hv]; exact Nat.sub_lt hpos Nat.one_pos
        live_le := fun u hu => (hlive hu).elim
        live_last := fun u hu => (hlive hu).elim
        apart := fun _ u hu => (hlive hu).elim
        sorted := List.Pairwise.nil
        birth_lt := fun hb => (hborn hb).elim
        birth_le := fun hb => (hborn hb).elim
        birth_eq := fun hb => (hborn hb).elim
        covered := fun hb => (hborn hb).elim
        undone_lt := fun i hi => absurd hi not_mem_nil }
  · refine ⟨forall_mem_nil _, ?_, ?_, forall_mem_nil _⟩
    · intro ts hd
      cases hd
    · rintro q ⟨r, hr, -⟩
      cases hr
  · refine ⟨le_rfl, ?_, fun v x hr => absurd hr not_mem_nil, fun q b hb => (hborn hb).elim⟩
    intro ts start hd
    cases hd

end Steps

end Node

end Ankusa
