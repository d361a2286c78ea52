import Ankusa.Lib.GroupCommit

set_option autoImplicit false

/-! # Group commit: what callers and readers may rely on

The invariants of `GroupCommit.Step` that say something about the answers and about the disk. Each
is kept by every step of the protocol (`*.step`); `FailInv` and `StampInv` need the side condition
they are about. -/

namespace GroupCommit

open List State

variable {fences stamps : Prop} {s t : State}

/-! ## The fence -/

/-- A fenced syncer waits for exactly one of: the writer's attention, or a `resume`. It is fenced
    while it answers a failed batch, and not while it syncs or answers a durable one. -/
structure FenceInv (s : State) : Prop where
  token : s.alarm + resumes s.mailbox = if s.fenced then 1 else 0
  mode : match s.doing with
    | .idle => True
    | .syncing _ _ => s.fenced = false
    | .answering _ failed => failed = s.fenced

section

variable (h : FenceInv s)
include h

theorem FenceInv.fenced_of_alarm (ha : 0 < s.alarm) :
    s.fenced = true ∧ s.alarm = 1 ∧ resumes s.mailbox = 0 := by
  have htoken := h.token
  cases hf : s.fenced with
  | false =>
    rw [hf, if_neg (by simp)] at htoken
    omega
  | true =>
    rw [hf, if_pos rfl] at htoken
    exact ⟨rfl, by omega, by omega⟩

theorem FenceInv.of_not_fenced (hf : s.fenced = false) : s.alarm = 0 ∧ resumes s.mailbox = 0 := by
  have htoken := h.token
  rw [hf, if_neg (by simp)] at htoken
  omega

theorem FenceInv.of_resume {v : Nat} {x : Int} {ms : List Msg}
    (hbox : s.mailbox = .resume v x :: ms) : s.fenced = true ∧ s.alarm = 0 ∧ resumes ms = 0 := by
  have htoken := h.token
  rw [hbox, resumes] at htoken
  cases hf : s.fenced with
  | false =>
    rw [hf, if_neg (by simp)] at htoken
    omega
  | true =>
    rw [hf, if_pos rfl] at htoken
    exact ⟨rfl, by omega, by omega⟩

theorem FenceInv.step (hstep : Step fences stamps s t) : FenceInv t := by
  have htoken := h.token
  have hmode := h.mode
  cases hstep with
  | quiet wal synced hwal hsynced hle | skip n stamp hstamp
  | landSynced n stamp acked hstamp hacked hquiet
  | trim => exact ⟨htoken, hmode⟩
  | land n stamp seqs =>
    have hr : resumes (s.land n stamp seqs).mailbox = resumes s.mailbox := by
      simp [State.land, resumes_append, resumes]
    exact ⟨by rw [hr]; exact htoken, hmode⟩
  | duplicate => exact ⟨by simpa [resumes_append, resumes] using htoken, hmode⟩
  | fence wal synced halarm =>
    obtain ⟨hf, ha, hr⟩ := h.fenced_of_alarm halarm
    exact ⟨by simp [State.fence, resumes_append, resumes, ha, hr, hf], hmode⟩
  | takeResume v x ms hdoing hbox =>
    obtain ⟨-, ha, hr⟩ := h.of_resume hbox
    exact ⟨by simp [ha, hr], by simp [hdoing]⟩
  | takeSync t ms hdoing hbox =>
    refine ⟨by simpa [hbox, resumes] using htoken, ?_⟩
    rcases s.taken_cases (t :: tickets ms) with ⟨hf, h⟩ | ⟨hf, -, h⟩ | ⟨hf, -, h⟩
    all_goals rw [h, hf]
  | syncOk ts start hdoing =>
    rw [hdoing] at hmode
    exact ⟨htoken, hmode.symm⟩
  | syncFail ts start hdoing =>
    rw [hdoing] at hmode
    obtain ⟨ha, hr⟩ := h.of_not_fenced hmode
    exact ⟨by simp [ha, hr], rfl⟩
  | answer t ts acked hdoing | refuse t ts hdoing =>
    rw [hdoing] at hmode
    exact ⟨htoken, hmode⟩
  | done => exact ⟨htoken, trivial⟩

end

/-! ## Answers -/

/-- A batch undoes nothing. -/
theorem SeqInv.undone_born (h : SeqInv s) {n : Nat} {stamp : Int}
    (hbirth : t.birth = s.born n stamp)
    (hundone : t.undone = s.undone) (q : Nat) : t.Undone q ↔ s.Undone q := by
  unfold State.Undone
  rw [hbirth, hundone]
  constructor
  · rintro ⟨b, hb, hi⟩
    exact ⟨b, (h.born_old (h.undone_lt _ hi)).1 hb, hi⟩
  · rintro ⟨b, hb, hi⟩
    exact ⟨b, (h.born_old (h.birth_lt hb).2).2 hb, hi⟩

variable {q : Nat}

theorem SeqInv.undone_fence (h : SeqInv s) (hu : t.Undone q) (hbirth : t.birth = s.birth)
    (hundone : t.undone = s.undone ∪ s.victims) : s.Undone q ∨ s.durable < q := by
  obtain ⟨b, hb, hi⟩ := hu
  rw [hbirth] at hb
  rw [hundone] at hi
  rcases hi with hi | ⟨u, hmem, b', hb', hidx⟩
  · exact .inl ⟨b, hb, hi⟩
  · have hlive : u ∈ s.live := (takeWhile_sublist _).subset hmem
    have hlt : s.durable < u := by simpa using mem_takeWhile_imp hmem
    obtain rfl := h.birth_eq hb' hb hidx
    exact .inr (h.apart .durable u hlive hlt q (hb.trans hb'.symm))

theorem Step.undone_cases (hseq : SeqInv s) (hstep : Step fences stamps s t)
    (h : t.Undone q) : s.Undone q ∨ s.durable < q := by
  cases hstep with
  | land n stamp seqs =>
    exact .inl ((hseq.undone_born (t := s.land n stamp seqs) rfl rfl q).1 h)
  | landSynced n stamp acked =>
    exact .inl ((hseq.undone_born (t := s.landSynced n stamp acked) rfl rfl q).1 h)
  | fence => exact hseq.undone_fence h rfl rfl
  | _ => exact .inl h

section

variable (hstep : Step fences stamps s t)
include hstep

theorem Step.durable_mono : s.durable ≤ t.durable := by
  cases hstep with
  | landSynced | takeResume | syncOk => exact le_max_left _ _
  | _ => exact le_rfl

theorem Step.next_mono : s.next ≤ t.next := by
  cases hstep with
  | skip n stamp hstamp | land n stamp seqs hn hstamp hseqs hmark
  | landSynced => exact Nat.le_add_right _ _
  | _ => exact le_rfl

theorem Step.wal_mono : s.wal ≤ t.wal := by
  cases hstep with
  | quiet wal synced hwal | fence wal synced halarm hwal => exact hwal
  | land | landSynced => exact Nat.le_succ _
  | _ => exact le_rfl

end

variable {b : Birth} {new : Ticket} {ts : List Ticket}

theorem Step.birth_mono (hseq : SeqInv s) (hstep : Step fences stamps s t)
    (h : s.birth q = some b) : t.birth q = some b := by
  have hborn : ∀ n stamp, s.born n stamp q = some b := by
    intro n stamp
    rw [born_of_lt (hseq.birth_lt h).1, h]
  cases hstep with
  | land n stamp | landSynced n stamp => exact hborn n stamp
  | _ => exact h

theorem Step.undone_mono (hseq : SeqInv s) (hstep : Step fences stamps s t) (h : s.Undone q) :
    t.Undone q := by
  obtain ⟨b, hb, hi⟩ := h
  refine ⟨b, hstep.birth_mono hseq hb, ?_⟩
  cases hstep with
  | fence => exact .inl hi
  | _ => exact hi

/-- What a caller is told stays: an acknowledged record is durable and not undone, and no ticket
    that may still be acknowledged holds an undone record. -/
structure AckInv (s : State) : Prop where
  ticket_born : ∀ k ∈ s.waiting, ∀ q ∈ k.seqs, q ≤ k.upto ∧ ∃ b, s.birth q = some b
  answering : ∀ ts, s.doing = .answering ts false → ∀ k ∈ ts, k.upto ≤ s.durable
  acked : ∀ q ∈ s.acked, q ≤ s.durable ∧ ¬ s.Undone q
  hopeful : ∀ k ∈ s.hopeful, ∀ q ∈ k.seqs, ¬ s.Undone q

variable {k : Ticket}

/-- A ticket queued last is hopeful after it only if it is the new one or was hopeful. -/
theorem mem_hopeful_append_sync (h : k ∈ t.hopeful)
    (hbox : t.mailbox = s.mailbox ++ [.sync new]) (hdoing : t.doing = s.doing)
    (hfenced : t.fenced = s.fenced) : k = new ∨ k ∈ s.hopeful := by
  unfold hopeful at h ⊢
  rw [hfenced] at h
  split_ifs at h ⊢
  · rw [hbox] at h
    exact (mem_behind_append_sync h).symm
  · simp only [waiting, hbox, hdoing, tickets_append, tickets, mem_append, mem_singleton] at h ⊢
    tauto

/-- What is acknowledged stays durable, and no step undoes it. -/
theorem AckInv.kept (h : AckInv s) (hseq : SeqInv s) (hstep : Step fences stamps s t)
    (hq : q ∈ s.acked) : q ≤ t.durable ∧ ¬ t.Undone q := by
  obtain ⟨hle, hnot⟩ := h.acked q hq
  refine ⟨le_trans hle hstep.durable_mono, fun hu => ?_⟩
  rcases hstep.undone_cases hseq hu with hu | hlt
  · exact hnot hu
  · exact absurd hle (not_le.2 hlt)

theorem AckInv.answering_step (h : AckInv s) (hstep : Step fences stamps s t)
    (hts : t.doing = .answering ts false) (hk : k ∈ ts) : k.upto ≤ t.durable := by
  cases hstep with
  | landSynced => exact le_trans (h.answering ts hts k hk) (le_max_left _ _)
  | takeResume v x ms hdoing => cases hdoing.symm.trans hts
  | takeSync u ms =>
    change s.taken (u :: tickets ms) = _ at hts
    rcases s.taken_cases (u :: tickets ms) with ⟨-, he⟩ | ⟨-, hcover, he⟩ | ⟨-, -, he⟩
    · rw [he] at hts
      simp at hts
    · rw [he, Doing.answering.injEq] at hts
      obtain ⟨rfl, -⟩ := hts
      exact le_trans (le_cover hk) hcover
    · rw [he] at hts
      cases hts
  | syncOk ts' =>
    obtain rfl : ts' = ts := by simpa using hts
    exact le_trans (le_cover hk) (le_max_right _ _)
  | answer u ts' acked hdoing =>
    obtain rfl : ts' = ts := by simpa using hts
    exact h.answering _ hdoing k (mem_cons_of_mem _ hk)
  | syncFail | refuse | done => simp at hts
  | _ => exact h.answering ts hts k hk

theorem AckInv.hopeful_step (h : AckInv s) (hseq : SeqInv s) (hfence : FenceInv s)
    (hstep : Step fences stamps s t) (hk : k ∈ t.hopeful) (hq : q ∈ k.seqs) : ¬ t.Undone q := by
  have hmode := hfence.mode
  cases hstep with
  | land n stamp seqs hn hstamp hseqs =>
    rw [hseq.undone_born (t := s.land n stamp seqs) rfl rfl]
    rcases mem_hopeful_append_sync hk rfl rfl rfl with rfl | hk
    · rintro ⟨b, hb, -⟩
      have := (hseq.birth_lt hb).1
      have := hseqs q hq
      omega
    · exact h.hopeful k hk q hq
  | landSynced n stamp acked =>
    rw [hseq.undone_born (t := s.landSynced n stamp acked) rfl rfl]
    exact h.hopeful k hk q hq
  | duplicate =>
    rcases mem_hopeful_append_sync hk rfl rfl rfl with rfl | hk
    · exact absurd hq (Set.notMem_empty q)
    · exact h.hopeful k hk q hq
  | fence wal synced halarm =>
    -- Everything queued so far is in front of the `resume`.
    obtain ⟨hf, -, hr⟩ := hfence.fenced_of_alarm halarm
    simp only [State.hopeful, State.fence, hf, if_true, behind_append_resume _ _ hr] at hk
    cases hk
  | takeResume v x ms hdoing hbox =>
    -- What is hopeful from now on was behind the `resume`.
    simp only [State.hopeful, State.waiting, hdoing, Doing.tickets, append_nil, Bool.false_eq_true,
      if_false] at hk
    have hf := (hfence.of_resume hbox).1
    refine h.hopeful k ?_ q hq
    simpa only [State.hopeful, hf, if_true, hbox, behind] using hk
  | takeSync u ms hdoing hbox =>
    simp only [State.hopeful, State.waiting, behind_rest, tickets_rest, State.tickets_taken,
      nil_append] at hk
    split_ifs at hk with hf
    · cases hk
    · refine h.hopeful k ?_ q hq
      simpa only [State.hopeful, if_neg hf, State.waiting, hbox, hdoing, tickets, Doing.tickets,
        append_nil] using hk
  | syncFail ts start hdoing =>
    rw [hdoing] at hmode
    simp only [State.hopeful, if_true, behind_of_no_resume (hfence.of_not_fenced hmode).2] at hk
    cases hk
  | answer u ts acked hdoing =>
    rw [hdoing] at hmode
    refine h.hopeful k ?_ q hq
    simp only [State.hopeful, ← hmode, Bool.false_eq_true, if_false, State.waiting, hdoing,
      Doing.tickets, mem_append, mem_cons] at hk ⊢
    tauto
  | refuse u ts hdoing =>
    rw [hdoing] at hmode
    exact h.hopeful k (by simpa only [State.hopeful, ← hmode, if_true] using hk) q hq
  | syncOk ts start hdoing | done failed hdoing =>
    exact h.hopeful k (by simpa only [State.hopeful, State.waiting, hdoing, Doing.tickets] using hk)
      q hq
  | _ => exact h.hopeful k hk q hq

theorem AckInv.step (h : AckInv s) (hseq : SeqInv s) (hfence : FenceInv s)
    (hstep : Step fences stamps s t) : AckInv t := by
  refine ⟨fun k hk q hq => ?_, fun ts hts k => h.answering_step hstep hts, fun q hq => ?_,
    fun k hk q => h.hopeful_step hseq hfence hstep hk⟩
  · rcases hstep.waiting_cases hk with hk | ⟨hupto, -, hseqs⟩
    · obtain ⟨hle, b, hb⟩ := h.ticket_born k hk q hq
      exact ⟨hle, b, hstep.birth_mono hseq hb⟩
    · rw [hupto]
      exact (hseqs q hq).2
  · by_cases hold : q ∈ s.acked
    · exact h.kept hseq hstep hold
    cases hstep with
    | landSynced n stamp acked hstamp hacked =>
      obtain ⟨hge, hlt⟩ := (hacked q hq).resolve_left hold
      rw [hseq.undone_born (t := s.landSynced n stamp acked) rfl rfl]
      refine ⟨le_trans (by omega) (le_max_right _ _), ?_⟩
      rintro ⟨b, hb, -⟩
      have := (hseq.birth_lt hb).1
      omega
    | answer u ts acked hdoing hacked =>
      have hmode := hfence.mode
      rw [hdoing] at hmode
      have hu : u ∈ s.waiting := by simp [State.waiting, hdoing, Doing.tickets]
      have hseqs := (hacked q hq).resolve_left hold
      refine ⟨le_trans (h.ticket_born u hu q hseqs).1 (h.answering _ hdoing u mem_cons_self),
        h.hopeful u ?_ q hseqs⟩
      simpa only [State.hopeful, ← hmode, Bool.false_eq_true, if_false] using hu
    | _ => exact absurd hq hold

/-! ## Failures -/

/-- A ticket answered with the error has no record left, or is waiting for the fence to delete
    them. -/
def FailInv (s : State) : Prop :=
  ∀ k ∈ s.doomed, ∀ q ∈ k.seqs,
    s.Undone q ∨ (0 < s.alarm ∧ s.durable < q ∧ ∃ b, s.birth q = some b)

theorem FailInv.undone_of_no_alarm (h : FailInv s) (ha : s.alarm = 0)
    (hk : k ∈ s.doomed) (hq : q ∈ k.seqs) : s.Undone q := by
  rcases h k hk q hq with hu | ⟨ha', -⟩
  · exact hu
  · omega

/-- The doomed tickets of a state that has the same ones: nothing that `FailInv` reads changes. -/
theorem FailInv.of_subset (h : FailInv s) (hsub : ∀ k ∈ t.doomed, k ∈ s.doomed)
    (hbirth : t.birth = s.birth) (hundone : t.undone = s.undone) (halarm : t.alarm = s.alarm)
    (hdurable : t.durable = s.durable) : FailInv t := by
  intro k hk q hq
  unfold State.Undone
  rw [hbirth, hundone, halarm, hdurable]
  exact h k (hsub k hk) q hq

theorem mem_doomed_append_sync (hk : k ∈ t.doomed) (hbox : t.mailbox = s.mailbox ++ [.sync new])
    (hdoing : t.doing = s.doing) (hfenced : t.fenced = s.fenced) (hfailed : t.failed = s.failed) :
    k ∈ s.doomed ∨ k = new ∧ s.fenced = true ∧ resumes s.mailbox = 0 := by
  unfold State.doomed at hk ⊢
  rw [hfenced, hfailed, hdoing, hbox, before_append_sync] at hk
  split_ifs at hk ⊢ with hf hr
  · simp only [mem_append, mem_singleton] at hk ⊢
    tauto
  · exact .inl hk
  · exact .inl hk

theorem FailInv.step (h : FailInv s) (hseq : SeqInv s) (hfence : FenceInv s) (hack : AckInv s)
    (hstep : Step True stamps s t) : FailInv t := by
  have hmode := hfence.mode
  have hundone : ∀ {q}, s.Undone q → t.Undone q := hstep.undone_mono hseq
  have hbirth : ∀ {q b}, s.birth q = some b → t.birth q = some b := hstep.birth_mono hseq
  cases hstep with
  | land n stamp seqs hn hstamp hseqs hmark =>
    intro k hk q hq
    rcases mem_doomed_append_sync hk rfl rfl rfl rfl with hk | ⟨rfl, hf, hr⟩
    · rcases h k hk q hq with hu | ⟨ha, hlt, b, hb⟩
      · exact .inl (hundone hu)
      · exact .inr ⟨ha, hlt, b, hbirth hb⟩
    -- The new ticket is doomed when the writer has not fenced yet, and its group is live then.
    obtain ⟨hge, hlt⟩ := hseqs q hq
    have hmark : s.durable < s.next := hseq.level_lt .durable
    have htoken := hfence.token
    rw [hf, hr, if_pos rfl] at htoken
    exact .inr ⟨by show 0 < s.alarm; omega, by show s.durable < q; omega, _, born_of_mem hge hlt⟩
  | landSynced n stamp acked hstamp hacked hquiet =>
    exact fun k hk q hq => .inl (hundone (h.undone_of_no_alarm (hquiet trivial) hk hq))
  | duplicate =>
    intro k hk q hq
    rcases mem_doomed_append_sync hk rfl rfl rfl rfl with hk | ⟨rfl, -⟩
    · exact h k hk q hq
    · exact absurd hq (Set.notMem_empty q)
  | fence =>
    intro k hk q hq
    have hk' : k ∈ s.doomed := by
      simpa only [State.doomed, State.fence, before_append_resume] using hk
    refine .inl ?_
    rcases h k hk' q hq with ⟨b, hb, hi⟩ | ⟨-, hlt, b, hb⟩
    · exact ⟨b, hb, .inl hi⟩
    · rcases hseq.covered hb hlt with hi | ⟨u, hu, hbu⟩
      · exact ⟨b, hb, .inl hi⟩
      · exact ⟨b, hb, .inr (hseq.mem_victims hu hbu hb hlt)⟩
  | takeResume v x ms hdoing hbox =>
    intro k hk q hq
    refine .inl (h.undone_of_no_alarm (hfence.of_resume hbox).2.1 ?_ hq)
    simp only [State.doomed, Bool.false_eq_true, if_false] at hk ⊢
    split_ifs
    · exact mem_append_right _ hk
    · exact hk
  | takeSync t ms hdoing hbox hbehind =>
    refine h.of_subset ?_ rfl rfl rfl rfl
    intro k hk
    simp only [State.doomed, before_rest, tickets_taken, nil_append] at hk ⊢
    split_ifs at hk ⊢ with hf
    · -- The condition: nothing is taken from behind a `resume`.
      have hbefore : before s.mailbox = t :: tickets ms := by
        have heq := tickets_eq s.mailbox
        rw [hbehind trivial hf, append_nil] at heq
        rw [← heq, hbox, tickets]
      rw [hbefore, hdoing]
      simpa [Doing.tickets] using hk
    · exact hk
  | syncOk ts start hdoing =>
    rw [hdoing] at hmode
    intro k hk q hq
    refine .inl (h.undone_of_no_alarm (hfence.of_not_fenced hmode).1 ?_ hq)
    simpa only [State.doomed, hmode, Bool.false_eq_true, if_false] using hk
  | syncFail ts start hdoing hfresh =>
    rw [hdoing] at hmode
    intro k hk q hq
    by_cases hmem : k ∈ s.doomed
    · exact .inl (h.undone_of_no_alarm (hfence.of_not_fenced hmode).1 hmem hq)
    · have hw : k ∈ s.waiting := by
        simp only [State.doomed, hmode, Bool.false_eq_true, if_false, if_true, waiting, hdoing,
          tickets_eq, Doing.tickets, mem_append] at hk hmem ⊢
        tauto
      exact .inr ⟨Nat.succ_pos _, hfresh trivial k hw q hq, (hack.ticket_born k hw q hq).2⟩
  | answer t ts acked hdoing =>
    rw [hdoing] at hmode
    refine h.of_subset (fun k hk => ?_) rfl rfl rfl rfl
    simpa only [State.doomed, ← hmode, Bool.false_eq_true, if_false] using hk
  | refuse t ts hdoing =>
    rw [hdoing] at hmode
    refine h.of_subset (fun k hk => ?_) rfl rfl rfl rfl
    simp only [State.doomed, ← hmode, if_true, hdoing, Doing.tickets, mem_append, mem_cons] at hk ⊢
    tauto
  | done failed hdoing =>
    refine h.of_subset (fun k hk => ?_) rfl rfl rfl rfl
    simpa only [State.doomed, hdoing, Doing.tickets] using hk
  | _ => exact h

/-! ## The disk -/

/-- Whatever the durable mark covers, or may be raised to cover by the fsync or the `resume` under
    way, is undone or in a batch that is on disk. -/
structure SyncInv (s : State) : Prop where
  synced_le : s.synced ≤ s.wal
  syncing : ∀ ts start, s.doing = .syncing ts start →
    start ≤ s.wal ∧ ∀ k ∈ ts, ∀ q b, s.birth q = some b → q ≤ k.upto → b.index < start
  resumed : ∀ v x, .resume v x ∈ s.mailbox → ∀ q b, s.birth q = some b → q ≤ v →
    b.index ∈ s.undone ∨ b.index < s.synced
  durable : ∀ q b, s.birth q = some b → q ≤ s.durable → b.index ∈ s.undone ∨ b.index < s.synced

/-- A record born by a step is above every mark there was. -/
theorem Step.birth_cases (hstep : Step fences stamps s t) (hb : t.birth q = some b) :
    s.birth q = some b ∨ s.next ≤ q ∧ b = ⟨s.wal, t.clock⟩ ∧
      (q ≤ t.durable ∧ b.index < t.synced ∨ t.durableAt = s.durableAt ∧
        (stamps → s.durableAt ≤ t.clock)) := by
  cases hstep with
  | land n stamp seqs hn hstamp hseqs hmark =>
    rcases born_eq_some hb with ⟨hge, -, rfl⟩ | hb
    · exact .inr ⟨hge, rfl, .inr ⟨rfl, hmark⟩⟩
    · exact .inl hb
  | landSynced =>
    rcases born_eq_some hb with ⟨hge, hlt, rfl⟩ | hb
    · exact .inr ⟨hge, rfl, .inl ⟨le_trans (by omega) (le_max_right _ _), Nat.lt_succ_self _⟩⟩
    · exact .inl hb
  | _ => exact .inl hb

theorem Step.safe_mono (hsynced : s.synced ≤ s.wal) (hstep : Step fences stamps s t) {i : Nat}
    (hi : i ∈ s.undone ∨ i < s.synced) : i ∈ t.undone ∨ i < t.synced := by
  cases hstep with
  | quiet wal synced hwal hsynced => exact hi.imp_right fun hi => lt_of_lt_of_le hi hsynced
  | landSynced => exact hi.imp_right fun hi => lt_of_lt_of_le hi (Nat.le_succ_of_le hsynced)
  | fence wal synced halarm hwal hsynced => exact hi.imp .inl fun hi => lt_of_lt_of_le hi hsynced
  | syncOk => exact hi.imp_right fun hi => lt_of_lt_of_le hi (le_max_left _ _)
  | _ => exact hi

theorem SyncInv.syncing_step (h : SyncInv s) (hseq : SeqInv s) (hstep : Step fences stamps s t)
    {start : Nat} (hd : t.doing = .syncing ts start) : start ≤ t.wal ∧
      ∀ k ∈ ts, ∀ q b, t.birth q = some b → q ≤ k.upto → b.index < start := by
  -- An fsync under way knows nothing of what is born meanwhile, which is above its tickets.
  have hold : s.doing = .syncing ts start → start ≤ t.wal ∧
      ∀ k ∈ ts, ∀ q b, t.birth q = some b → q ≤ k.upto → b.index < start := by
    intro hd
    obtain ⟨hstart, hts⟩ := h.syncing ts start hd
    refine ⟨le_trans hstart hstep.wal_mono, fun k hk q b hb hq => ?_⟩
    have hk' : k ∈ s.waiting := mem_append_right _ (by rw [hd]; exact hk)
    rcases hstep.birth_cases hb with hb | ⟨hge, -⟩
    · exact hts k hk q b hb hq
    · exact absurd (hseq.level_lt (.ticket hk')) (by omega)
  cases hstep with
  | takeResume v x ms hdoing => cases hdoing.symm.trans hd
  | takeSync u ms =>
    change s.taken (u :: tickets ms) = _ at hd
    rcases s.taken_cases (u :: tickets ms) with ⟨-, he⟩ | ⟨-, -, he⟩ | ⟨-, -, he⟩
    · rw [he] at hd
      cases hd
    · rw [he] at hd
      cases hd
    · rw [he, Doing.syncing.injEq] at hd
      obtain ⟨rfl, rfl⟩ := hd
      exact ⟨le_rfl, fun k hk q b hb _ => (hseq.birth_lt hb).2⟩
  | syncOk | syncFail | answer | refuse | done => simp at hd
  | _ => exact hold hd

theorem SyncInv.step (h : SyncInv s) (hseq : SeqInv s) (hstep : Step fences stamps s t) :
    SyncInv t := by
  have hsafe : ∀ {i}, i ∈ s.undone ∨ i < s.synced → i ∈ t.undone ∨ i < t.synced :=
    hstep.safe_mono h.synced_le
  -- A record at or below a mark of before the step is born already.
  have hborn : ∀ {v x}, Level s v x → ∀ {q b}, t.birth q = some b → q ≤ v → s.birth q = some b := by
    intro v x hv q b hb hq
    exact (hstep.birth_cases hb).resolve_right fun hnew => absurd (hseq.level_lt hv) (by omega)
  refine ⟨?_, fun ts start => h.syncing_step hseq hstep, fun v x hr q b hb hq => ?_,
    fun q b hb hq => ?_⟩
  · have hle := h.synced_le
    cases hstep with
    | quiet wal synced hwal hsynced hle => exact hle
    | land => exact Nat.le_succ_of_le hle
    | landSynced => exact le_rfl
    | fence wal synced halarm hwal hsynced hle => exact hle
    | syncOk ts start hdoing => exact max_le hle (h.syncing ts start hdoing).1
    | _ => exact hle
  · rcases hstep.resume_cases hr with hr | ⟨-, -, ht⟩
    · exact hsafe (h.resumed v x hr q b (hborn (.resume hr) hb hq) hq)
    -- What is not durable now is deleted by this very fence.
    by_cases hd : q ≤ s.durable
    · exact hsafe (h.durable q b (hborn .durable hb hd) hd)
    · rw [ht] at hb ⊢
      rcases hseq.covered hb (not_le.1 hd) with hi | ⟨u, hu, hbu⟩
      · exact .inl (.inl hi)
      · exact .inl (.inr (hseq.mem_victims hu hbu hb (not_le.1 hd)))
  · by_cases hd : q ≤ s.durable
    · exact hsafe (h.durable q b (hborn .durable hb hd) hd)
    cases hstep with
    | landSynced =>
      refine .inr ?_
      rcases born_eq_some hb with ⟨-, -, rfl⟩ | hb
      · exact Nat.lt_succ_self _
      · exact Nat.lt_succ_of_lt (hseq.birth_lt hb).2
    | takeResume v x ms hdoing hbox =>
      exact h.resumed v x (by rw [hbox]; exact mem_cons_self) q b hb
        ((le_max_iff.1 hq).resolve_left hd)
    | syncOk ts start hdoing =>
      change q ≤ max s.durable (cover ts).1 at hq
      rcases max_cover s.durable ts with hm | ⟨k, hk, hm⟩
      · exact absurd (hm ▸ hq) hd
      · exact .inr (lt_of_lt_of_le ((h.syncing ts start hdoing).2 k hk q b hb (hm ▸ hq))
          (le_max_right _ _))
    | _ => exact absurd hq hd

/-! ## Stamps -/

/-- Records above a mark are stamped at or after it. -/
structure StampInv (s : State) : Prop where
  clock_nonneg : 0 ≤ s.clock
  birth_nonneg : ∀ q b, s.birth q = some b → 0 ≤ b.stamp
  waiting_le : ∀ k ∈ s.waiting, k.stamp ≤ s.clock
  resume_le : ∀ v x, .resume v x ∈ s.mailbox → x ≤ s.clock
  above : ∀ {v x}, Level s v x → ∀ {q b}, s.birth q = some b → v < q → s.durable < q → x ≤ b.stamp

theorem Step.clock_mono (hstep : Step fences stamps s t) : s.clock ≤ t.clock := by
  cases hstep with
  | skip n stamp hstamp | land n stamp seqs hn hstamp hseqs hmark
  | landSynced n stamp acked hstamp => exact hstamp
  | _ => exact le_rfl

/-- A mark after a step was one before it, or is everything applied, or is the durable mark. -/
theorem Step.level_cases (hstep : Step fences stamps s t) {v : Nat} {x : Int} (hv : Level t v x) :
    Level s v x ∨ (v = t.applied ∧ x = t.clock) ∨ v = t.durable ∧ x = t.durableAt := by
  cases hv with
  | durable => exact .inr (.inr ⟨rfl, rfl⟩)
  | ticket hk =>
    rcases hstep.waiting_cases hk with hk | ⟨hupto, hstamp, -⟩
    · exact .inl (.ticket hk)
    · exact .inr (.inl ⟨hupto, hstamp⟩)
  | resume hr =>
    rcases hstep.resume_cases hr with hr | ⟨hv, hx, -⟩
    · exact .inl (.resume hr)
    · exact .inr (.inl ⟨hv, hx⟩)

theorem StampInv.durableAt_le_birth (h : StampInv s) (hseq : SeqInv s)
    (hstep : Step fences True s t)
    (hb : s.birth q = some b) (hd : t.durable < q) : t.durableAt ≤ b.stamp := by
  cases hstep with
  | landSynced =>
    have := (hseq.birth_lt hb).1
    have := lt_of_le_of_lt (le_max_right _ _) hd
    omega
  | takeResume v x ms hdoing hbox =>
    obtain ⟨hd, hv⟩ := max_lt_iff.1 hd
    exact max_le (h.above .durable hb hd hd)
      (h.above (.resume (by rw [hbox]; exact mem_cons_self)) hb hv hd)
  | syncOk ts start hdoing =>
    obtain ⟨hd, hcover⟩ := max_lt_iff.1 hd
    refine max_le (h.above .durable hb hd hd)
      (cover_stamp_le (h.birth_nonneg q b hb) fun k hk => ?_)
    have hk' : k ∈ s.waiting := mem_append_right _ (by rw [hdoing]; exact hk)
    exact h.above (.ticket hk') hb (lt_of_le_of_lt (le_cover hk) hcover) hd
  | _ => exact h.above .durable hb hd hd

theorem StampInv.step (h : StampInv s) (hseq : SeqInv s) (hstep : Step fences True s t) :
    StampInv t := by
  have hclock := hstep.clock_mono
  have hwaiting : ∀ k ∈ t.waiting, k.stamp ≤ t.clock := by
    intro k hk
    rcases hstep.waiting_cases hk with hk | ⟨-, hstamp, -⟩
    · exact le_trans (h.waiting_le k hk) hclock
    · exact hstamp.le
  have hresume : ∀ v x, .resume v x ∈ t.mailbox → x ≤ t.clock := by
    intro v x hr
    rcases hstep.resume_cases hr with hr | ⟨-, hx, -⟩
    · exact le_trans (h.resume_le v x hr) hclock
    · exact hx.le
  refine ⟨le_trans h.clock_nonneg hclock, fun q b hb => ?_, hwaiting, hresume,
    fun {v x} hv {q b} hb hlt hd => ?_⟩
  · rcases hstep.birth_cases hb with hb | ⟨-, rfl, -⟩
    · exact h.birth_nonneg q b hb
    · exact le_trans h.clock_nonneg hclock
  have hle := (hseq.step hstep).birth_le hb
  rcases hstep.birth_cases hb with hb | ⟨-, rfl, hnew⟩
  · rcases hstep.level_cases hv with hv | ⟨rfl, -⟩ | ⟨rfl, rfl⟩
    · exact h.above hv hb hlt (lt_of_le_of_lt hstep.durable_mono hd)
    · omega
    · exact h.durableAt_le_birth hseq hstep hb hd
  · -- The new records carry the newest stamp of all.
    obtain ⟨hsame, hmark⟩ := hnew.resolve_left fun hcovered => absurd hcovered.1 (not_le.2 hd)
    cases hv with
    | durable => exact hsame.le.trans (hmark trivial)
    | ticket hk => exact hwaiting _ hk
    | resume hr => exact hresume _ _ hr

theorem StampInv.durableAt_le (h : StampInv s) (hstep : Step fences stamps s t) :
    t.durableAt ≤ max s.durableAt t.clock := by
  cases hstep with
  | landSynced => exact le_rfl
  | takeResume v x ms hdoing hbox =>
    have hx : x ≤ s.clock := h.resume_le v x (by rw [hbox]; exact mem_cons_self)
    exact max_le_max le_rfl hx
  | syncOk ts start hdoing =>
    refine max_le_max le_rfl (cover_stamp_le h.clock_nonneg fun k hk => h.waiting_le k ?_)
    rw [waiting, hdoing]
    exact mem_append_right _ hk
  | _ => exact le_max_left _ _

/-! ## Order -/

/-- Later batches have higher numbers. -/
def OrderInv (s : State) : Prop :=
  ∀ q q' b b', s.birth q = some b → s.birth q' = some b' → b.index < b'.index → q < q'

theorem OrderInv.step (h : OrderInv s) (hseq : SeqInv s) (hstep : Step fences stamps s t) :
    OrderInv t := by
  have hborn : ∀ n stamp q q' b b', s.born n stamp q = some b → s.born n stamp q' = some b' →
      b.index < b'.index → q < q' := by
    intro n stamp q q' b b' hb hb' hlt
    rcases born_eq_some hb with ⟨hq, -, rfl⟩ | hb
    · -- Nothing is later than the batch that has just been numbered.
      rcases born_eq_some hb' with ⟨-, -, rfl⟩ | hb'
      · exact absurd hlt (lt_irrefl _)
      · exact absurd hlt (not_lt.2 (hseq.birth_lt hb').2.le)
    · rcases born_eq_some hb' with ⟨hq', -, rfl⟩ | hb'
      · exact lt_of_lt_of_le (hseq.birth_lt hb).1 hq'
      · exact h q q' b b' hb hb' hlt
  cases hstep with
  | land n stamp | landSynced n stamp => exact hborn n stamp
  | _ => exact h

end GroupCommit
