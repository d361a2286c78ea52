import Ankusa.Intake.Dual
import Ankusa.Queue.Checks

set_option autoImplicit false

/-! # The answers of a dual batch

Every call is in one place: the mailbox, a batch in flight, a reply the syncer holds, or the replies
that went out. A batch leaves the flight with its replies, when the second of its halves is in.

A hook is answered as committed when its rows are on disk; a hook of a group that has a record, when
the log has confirmed all records of its batch as well. Two kinds of hooks are answered without the
log, and are meant to be: one that has no obligations and therefore no record, and the hooks of a
quarantine release, which were acked long ago. -/

namespace Ankusa.Dual

open KV Writer Pending List Run

/-! ## Where a call is -/

/-- The callers of a batch in flight. -/
def Batch.callers (b : Batch) : List Nat := b.cx.calls.map Prod.fst

/-- The callers that wait for an fsync. -/
def Waiting.callers (x : Waiting) : List Nat := x.calls.map Prod.fst

/-- How often a call is in the mailbox, in flight, with the syncer, or answered. -/
def State.places (s : State) (c : Nat) : Nat :=
  (s.queue.map Node.Call.id).count c + (s.inflight.flatMap Batch.callers).count c +
    (s.waiting.flatMap Waiting.callers).count c + (s.ghost.sent.map Sent.call).count c

theorem map_call_replyCalls (records : List Rec) (release : Bool) (calls : List (Nat × Nat))
    (r : Reply) : (replyCalls records release calls r).map Sent.call = calls.map Prod.fst := by
  induction calls generalizing r with
  | nil => rfl
  | cons call calls ih =>
    cases r with
    | ok | error => simp [replyCalls, ih]

variable {records : List Rec} {calls : List (Nat × Nat)} {r : Reply} {α : Type} {l : List α}
  {env : Env} {seq m : Nat} {x : Waiting} {g : Tracked}

theorem mem_replyCalls {release : Bool} {x : Sent} (hx : x ∈ replyCalls records release calls r) :
    x.records = records ∧ x.release = release ∧
      ∀ as, x.reply = .ok as → ∃ bs, r = .ok bs ∧ as ⊆ bs := by
  induction calls generalizing r with
  | nil => cases hx
  | cons call calls ih =>
    cases r with
    | ok bs =>
      rcases mem_cons.1 hx with rfl | hx
      · refine ⟨rfl, rfl, fun as has => ⟨bs, rfl, ?_⟩⟩
        cases has
        exact take_subset _ _
      · obtain ⟨hrec, hrel, hsub⟩ := ih hx
        refine ⟨hrec, hrel, fun as has => ?_⟩
        obtain ⟨cs, hcs, hsub⟩ := hsub as has
        cases hcs
        exact ⟨bs, rfl, List.Subset.trans hsub (drop_subset _ _)⟩
    | error =>
      rcases mem_cons.1 hx with rfl | hx
      · exact ⟨rfl, rfl, nofun⟩
      · exact ih hx

/-- A reply of the calls that are nowhere else. -/
theorem places_reply (s : State) (calls : List (Nat × Nat)) (records : List Rec) (release : Bool)
    (r : Reply) (c : Nat) :
    (s.reply calls records release r).places c = s.places c + (calls.map Prod.fst).count c := by
  simp only [State.places, State.reply, map_append, map_call_replyCalls, count_append]
  omega

variable {i : Nat}

theorem count_flatMap_eraseIdx {x : α} (hi : l[i]? = some x) (f : α → List Nat) (c : Nat) :
    (l.flatMap f).count c = ((l.eraseIdx i).flatMap f).count c + (f x).count c := by
  obtain ⟨hlt, rfl⟩ := List.getElem?_eq_some_iff.1 hi
  have hperm := (getElem_cons_eraseIdx_perm hlt).flatMap_right f
  rw [← hperm.count_eq c, flatMap_cons, count_append]
  omega

theorem map_set_eq {β : Type} {x y : α} (hi : l[i]? = some x) (f : α → β) (hxy : f y = f x) :
    (l.set i y).map f = l.map f := by
  obtain ⟨hlt, rfl⟩ := List.getElem?_eq_some_iff.1 hi
  rw [map_set, hxy, ← getElem_map f (h := by simpa using hlt), set_getElem_self]

theorem flatMap_set_eq {β : Type} {x y : α} (hi : l[i]? = some x) (f : α → List β)
    (hxy : f y = f x) : (l.set i y).flatMap f = l.flatMap f := by
  rw [flatMap_def, flatMap_def, map_set_eq hi f hxy]

/-! ## What an answer says -/

theorem mem_withTags {ts : List (Option Fault)} {as : List Answer} {a : Answer}
    (h : a ∈ withTags ts as) : a ∈ as ∨ ∃ f, a = .error f := by
  fun_induction withTags ts as with
  | case1 => cases h
  | case2 f ts as ih =>
    rcases mem_cons.1 h with rfl | h
    · exact .inr ⟨f, rfl⟩
    · exact ih h
  | case3 ts a' as ih =>
    rcases mem_cons.1 h with rfl | h
    · exact .inl mem_cons_self
    · exact (ih h).imp (mem_cons_of_mem _) id
  | case4 ts ih => exact (ih h).imp id id

/-- The commits among the results of a batch are its fresh hooks. -/
def Cx.Sound (cx : Cx) : Prop := ∀ env seq, .committed env seq ∈ cx.results → env.id ∈ cx.ids

theorem mem_reassemble {marks : List Mark} {first : Nat} {r : Result}
    (h : r ∈ reassemble marks first) : ∃ m ∈ marks, Settles m r := by
  induction marks generalizing first with
  | nil => cases h
  | cons m ms ih =>
    obtain ⟨r', next, heq, hsettles⟩ := reassemble_cons m ms first
    rw [heq] at h
    rcases mem_cons.1 h with rfl | h
    · exact ⟨m, mem_cons_self, hsettles⟩
    · obtain ⟨m', hm', hs⟩ := ih h
      exact ⟨m', mem_cons_of_mem _ hm', hs⟩

theorem State.cx_sound (cfg : Config) (s : State) (calls : List Node.Call)
    (prefetch : List (Key × Option Val))
    (now : Ms) (extra : List Op) : (s.cx cfg calls prefetch now extra).Sound := by
  intro env seq hmem
  obtain ⟨m, hm, hsettles⟩ := mem_reassemble hmem
  cases m with
  | fresh item =>
    obtain ⟨q, heq⟩ := hsettles
    cases heq
    exact mem_map_of_mem ((dedupeCheck_picked _ _).2.1 item hm)
  | done r => exact absurd hsettles.symm ((dedupeCheck_marked _ _ _ _ _ _ _).2 r hm env seq)

theorem Cx.Sound.committed {cx : Cx} (h : cx.Sound) (hmem : .committed env seq ∈ cx.committed) :
    env.id ∈ cx.ids := by
  rcases mem_withTags hmem with hmem | ⟨f, hf⟩
  · obtain ⟨r, hr, heq⟩ := mem_map.1 hmem
    cases r with
    | committed =>
      cases heq
      exact h env seq hr
    | duplicate | error => cases heq
  · cases hf

/-- When a half failed only a hook without a record is answered as committed, and only when the rows
    are in the store. -/
theorem Cx.Sound.half {cx : Cx} (h : cx.Sound) {stored : Bool}
    (hmem : .committed env seq ∈ cx.half stored) :
    stored = true ∧ env.id ∈ cx.ids ∧ seq ∉ cx.records.map Rec.seq := by
  rcases mem_withTags hmem with hmem | ⟨f, hf⟩
  · obtain ⟨r, hr, heq⟩ := mem_map.1 hmem
    cases r with
    | committed =>
      simp only [halve] at heq
      split_ifs at heq with hcarried hstored
      · cases heq
        exact ⟨hstored, h env seq hr, hcarried⟩
    | duplicate =>
      simp only [halve] at heq
      split_ifs at heq
    | error => cases heq
  · cases hf

theorem Cx.not_committed_refused {cx : Cx} {f : Fault} : .committed env seq ∉ cx.refused f := by
  intro hmem
  rcases mem_withTags hmem with hmem | ⟨f', hf⟩
  · obtain ⟨r, hr, heq⟩ := mem_map.1 hmem
    cases r with
    | committed | error => cases heq
    | duplicate =>
      simp only [refuseFresh] at heq
      split_ifs at heq
  · cases hf

/-! ## The invariant -/

/-- What is known of the two halves: the hooks whose rows have been on disk, those the log
    confirmed, and the groups the writer lists above the mark. -/
structure Known where
  fsynced : List String
  logged : List String
  mark : Nat
  groups : List Tracked

/-- What is known of the disk and the log. -/
def State.known (s : State) : Known := ⟨s.ghost.fsynced, s.ghost.logged, s.durableMark, s.unsynced⟩

/-- The hooks of a written batch have been on disk, or the writer lists it and the mark is below
    it. -/
def Known.Covered (k : Known) (ids : List String) (upto : Nat) : Prop :=
  ids ⊆ k.fsynced ∨ k.mark < upto ∧ ∃ g ∈ k.groups, g.upto = upto ∧ g.ids = ids

/-- More is on disk or confirmed, and what was covered is. -/
structure Known.Le (k k' : Known) : Prop where
  fsynced : k.fsynced ⊆ k'.fsynced
  logged : k.logged ⊆ k'.logged
  covered : ∀ ids upto, k.Covered ids upto → k'.Covered ids upto

/-- What a batch in flight knows of its halves is true. -/
structure Batch.Fits (b : Batch) (k : Known) : Prop where
  sound : b.cx.Sound
  stored : b.local_ = .ok → b.cx.ids ⊆ k.fsynced
  applied : b.local_ = .pending → b.undone = false → k.Covered b.cx.ids b.cx.upto
  sent : ∀ p, b.sent = some (some p) → b.cx.records.map Rec.id ⊆ k.logged
  log : ∀ p, b.log = some (some p) → b.cx.records.map Rec.id ⊆ k.logged

/-- The answers that wait are of hooks whose rows are written, or on disk already. -/
structure Waiting.Fits (x : Waiting) (k : Known) : Prop where
  sound : ∀ env seq, .committed env seq ∈ x.answers → env.id ∈ x.ids
  applied : x.undone = false → x.ids = [] ∨ k.Covered x.ids x.upto

/-- A hook answered as committed has been on disk, and the log has confirmed the records of its
    batch if it has one and is not released from the quarantine. -/
def Reply.Fits (k : Known) (records : List Rec) (release : Bool) (r : Reply) : Prop :=
  ∀ as, r = .ok as → ∀ env seq, .committed env seq ∈ as → env.id ∈ k.fsynced ∧
    (release = false → seq ∈ records.map Rec.seq → ∀ x ∈ records, x.id ∈ k.logged)

variable {b : Batch} {k k' : Known}

theorem Batch.Fits.mono (h : b.Fits k) (hk : k.Le k') : b.Fits k' where
  sound := h.sound
  stored hb := List.Subset.trans (h.stored hb) hk.fsynced
  applied hb hu := hk.covered _ _ (h.applied hb hu)
  sent p hp := List.Subset.trans (h.sent p hp) hk.logged
  log p hp := List.Subset.trans (h.log p hp) hk.logged

theorem Waiting.Fits.mono (h : x.Fits k) (hk : k.Le k') : x.Fits k' where
  sound := h.sound
  applied hu := (h.applied hu).imp id (hk.covered _ _)

theorem Reply.Fits.mono {release : Bool} (h : r.Fits k records release) (hk : k.Le k') :
    r.Fits k' records release := by
  intro as has env seq hmem
  obtain ⟨hid, hlog⟩ := h as has env seq hmem
  exact ⟨hk.fsynced hid, fun hrel hseq x hx => hk.logged (hlog hrel hseq x hx)⟩

/-- The calls in `hand` are on their way from one place to another. -/
structure Joined (s : State) (hand : List Nat) : Prop where
  places : ∀ c, s.places c + hand.count c = s.ghost.begun.count c
  nodup : s.ghost.begun.Nodup
  sent : ∀ x ∈ s.ghost.sent, x.reply.Fits s.known x.records x.release
  flight : ∀ b ∈ s.inflight, b.Fits s.known ∧ (b.local_ = .pending ∨ b.log = none)
  waiting : ∀ x ∈ s.waiting, x.Fits s.known
  sorted : s.unsynced.Pairwise fun g g' => g'.upto < g.upto
  marks : s.durableMark < s.nextSeq ∧ s.applied < s.nextSeq ∧ ∀ g ∈ s.unsynced, g.upto < s.nextSeq

theorem Joined.start : Joined .start [] := by
  refine ⟨fun c => ?_, ?_, ?_, ?_, ?_, ?_, ?_⟩ <;> simp [State.start, State.places]

variable {s s' : State} {hand : List Nat}

/-- What is known of every batch and reply changes with the marks. -/
theorem Joined.know (h : Joined s hand) (hk : s.known.Le s'.known) (hq : s'.queue = s.queue)
    (hi : s'.inflight = s.inflight) (hw : s'.waiting = s.waiting)
    (hs : s'.ghost.sent = s.ghost.sent) (hb : s'.ghost.begun = s.ghost.begun)
    (hsorted : s'.unsynced.Pairwise fun g g' => g'.upto < g.upto)
    (hmarks : s'.durableMark < s'.nextSeq ∧ s'.applied < s'.nextSeq ∧
      ∀ g ∈ s'.unsynced, g.upto < s'.nextSeq) : Joined s' hand where
  places c := by
    rw [hb, ← h.places c]
    simp only [State.places, hq, hi, hw, hs]
  nodup := by
    rw [hb]
    exact h.nodup
  sent x hx := by
    rw [hs] at hx
    exact (h.sent x hx).mono hk
  flight b hb := by
    rw [hi] at hb
    obtain ⟨hfits, hopen⟩ := h.flight b hb
    exact ⟨hfits.mono hk, hopen⟩
  waiting x hx := by
    rw [hw] at hx
    exact (h.waiting x hx).mono hk
  sorted := hsorted
  marks := hmarks

/-- A step that moves no call and does not touch the marks. -/
structure Frame (s s' : State) : Prop where
  queue : s'.queue = s.queue
  inflight : s'.inflight = s.inflight
  waiting : s'.waiting = s.waiting
  sent : s'.ghost.sent = s.ghost.sent
  begun : s'.ghost.begun = s.ghost.begun
  unsynced : s'.unsynced = s.unsynced
  mark : s'.durableMark = s.durableMark
  applied : s'.applied = s.applied
  seq : s.nextSeq ≤ s'.nextSeq
  fsynced : s.ghost.fsynced ⊆ s'.ghost.fsynced
  logged : s.ghost.logged ⊆ s'.ghost.logged

theorem Frame.le (h : Frame s s') : s.known.Le s'.known := by
  refine ⟨h.fsynced, h.logged, fun ids upto hc => ?_⟩
  rcases hc with hsub | ⟨hmark, hg⟩
  · exact .inl (List.Subset.trans hsub h.fsynced)
  refine .inr ⟨?_, ?_⟩
  · show s'.durableMark < upto
    rw [h.mark]
    exact hmark
  · show ∃ g ∈ s'.unsynced, _
    rw [h.unsynced]
    exact hg

theorem Joined.frame (h : Joined s hand) (hf : Frame s s') : Joined s' hand := by
  refine h.know hf.le hf.queue hf.inflight hf.waiting hf.sent hf.begun ?_ ?_
  · rw [hf.unsynced]
    exact h.sorted
  · rw [hf.mark, hf.applied, hf.unsynced]
    obtain ⟨hmark, happlied, hgroups⟩ := h.marks
    exact ⟨hmark.trans_le hf.seq, happlied.trans_le hf.seq,
      fun g hg => (hgroups g hg).trans_le hf.seq⟩

theorem Joined.reply (h : Joined s (calls.map Prod.fst)) {release : Bool}
    (hr : r.Fits s.known records release) : Joined (s.reply calls records release r) [] := by
  refine { h with places := fun c => ?_, sent := fun x hx => ?_ }
  · rw [places_reply]
    exact h.places c
  rcases mem_append.1 hx with hx | hx
  · obtain ⟨hrec, hrel, hsub⟩ := mem_replyCalls hx
    intro as has env seq hmem
    obtain ⟨bs, hbs, hsub⟩ := hsub as has
    rw [hrec, hrel]
    exact hr bs hbs env seq (hsub hmem)
  · exact h.sent x hx

theorem Joined.replyError (h : Joined s (calls.map Prod.fst))
    (records : List Rec) (release : Bool) (f : Fault) :
    Joined (s.reply calls records release (.error f)) [] :=
  h.reply nofun

theorem Joined.fly (h : Joined s b.callers) (hb : b.Fits s.known)
    (hopen : b.local_ = .pending ∨ b.log = none) :
    Joined { s with inflight := b :: s.inflight } [] := by
  refine { h with places := fun c => ?_, flight := fun b' hb' => ?_ }
  · have hc := h.places c
    simp only [State.places, flatMap_cons, count_append, count_nil] at hc ⊢
    omega
  · rcases mem_cons.1 hb' with rfl | hb'
    · exact ⟨hb, hopen⟩
    · exact h.flight b' hb'

theorem Joined.wait (h : Joined s x.callers) (hx : x.Fits s.known) :
    Joined { s with waiting := x :: s.waiting } [] := by
  refine { h with places := fun c => ?_, waiting := fun x' hx' => ?_ }
  · have hc := h.places c
    simp only [State.places, flatMap_cons, count_append, count_nil] at hc ⊢
    omega
  · rcases mem_cons.1 hx' with rfl | hx'
    · exact hx
    · exact h.waiting x' hx'

theorem Joined.land (h : Joined s []) (hi : s.inflight[i]? = some b) :
    Joined { s with inflight := s.inflight.eraseIdx i } b.callers := by
  refine { h with
    places := fun c => ?_, flight := fun b' hb' => h.flight b' (mem_of_mem_eraseIdx hb') }
  have hc := h.places c
  have hcount := count_flatMap_eraseIdx hi Batch.callers c
  simp only [State.places, count_nil] at hc ⊢
  omega

theorem Joined.revise (h : Joined s hand) {b' : Batch} (hi : s.inflight[i]? = some b)
    (hcalls : b'.callers = b.callers) (hb : b'.Fits s.known)
    (hopen : b'.local_ = .pending ∨ b'.log = none) :
    Joined { s with inflight := s.inflight.set i b' } hand := by
  refine { h with places := fun c => ?_, flight := fun b'' hb'' => ?_ }
  · have hc := h.places c
    simp only [State.places, flatMap_set_eq hi Batch.callers hcalls] at hc ⊢
    exact hc
  · rcases mem_or_eq_of_mem_set hb'' with hb'' | rfl
    · exact h.flight b'' hb''
    · exact ⟨hb, hopen⟩

/-- The groups above a mark stay listed. -/
theorem mem_takeWhile_of_sorted {l : List Tracked}
    (hsorted : l.Pairwise fun g g' => g'.upto < g.upto) (hg : g ∈ l) (hm : m < g.upto) :
    g ∈ l.takeWhile fun g => m < g.upto := by
  induction l with
  | nil => cases hg
  | cons g' l ih =>
    obtain ⟨hhead, hsorted⟩ := pairwise_cons.1 hsorted
    have hlt : m < g'.upto := by
      rcases mem_cons.1 hg with rfl | hg
      · exact hm
      · exact hm.trans (hhead g hg)
    rw [takeWhile_cons_of_pos (by simpa using hlt)]
    rcases mem_cons.1 hg with rfl | hg
    · exact mem_cons_self
    · exact mem_cons_of_mem _ (ih hsorted hg)

/-- A batch is written under seqs that are above every mark. -/
theorem Joined.track (h : Joined s hand) (cx : Cx) (hfirst : ∀ g ∈ s.unsynced, g.upto < cx.upto)
    (hseq : cx.upto < s.nextSeq) : Joined (s.track cx) hand := by
  have hsub := takeWhile_sublist (l := s.unsynced) fun g => s.durableMark < g.upto
  refine h.know ⟨Subset.refl _, Subset.refl _, fun ids upto hc => ?_⟩ rfl rfl rfl rfl rfl ?_ ?_
  · rcases hc with hsub | ⟨hmark, g, hg, rfl, rfl⟩
    · exact .inl hsub
    · exact .inr ⟨hmark, g, mem_cons_of_mem _ (mem_takeWhile_of_sorted h.sorted hg hmark), rfl, rfl⟩
  · exact pairwise_cons.2 ⟨fun g hg => hfirst g (hsub.subset hg), h.sorted.sublist hsub⟩
  · exact ⟨h.marks.1, hseq, forall_mem_cons.2 ⟨hseq, fun g hg => h.marks.2.2 g (hsub.subset hg)⟩⟩

theorem Joined.raise (h : Joined s hand) (hm : m < s.nextSeq)
    (hsynced : ∀ g ∈ s.unsynced, g.ids ⊆ s.ghost.fsynced) :
    Joined { s with durableMark := m } hand := by
  refine h.know ⟨Subset.refl _, Subset.refl _, fun ids upto hc => ?_⟩ rfl rfl rfl rfl rfl
    h.sorted ⟨hm, h.marks.2⟩
  rcases hc with hsub | ⟨_, g, hg, rfl, rfl⟩
  · exact .inl hsub
  · exact .inl (hsynced g hg)

/-! ## One step -/

variable {cx : Cx} {w : Write}

theorem Cx.lt_upto (hfirst : cx.firstSeq = s.nextSeq) (hfresh : cx.checked.fresh ≠ []) {q : Nat}
    (hq : q < s.nextSeq) : q < cx.upto := by
  have hlen := length_pos_of_ne_nil hfresh
  unfold Cx.upto
  omega

theorem Cx.upto_lt (hfirst : cx.firstSeq = s.nextSeq) (hfresh : cx.checked.fresh ≠ []) :
    cx.upto < s.nextSeq + cx.checked.fresh.length := by
  have hlen := length_pos_of_ne_nil hfresh
  unfold Cx.upto
  omega

section

variable (h : Joined s hand)
include h

theorem Joined.setTable (t : Table) : Joined { s with table := t } hand :=
  h.frame ⟨rfl, rfl, rfl, rfl, rfl, rfl, rfl, rfl, le_rfl, Subset.refl _, Subset.refl _⟩

theorem Joined.startDual (cx : Cx) (w : Write) : Joined (s.startDual cx w) hand :=
  h.frame ⟨rfl, rfl, rfl, rfl, rfl, rfl, rfl, rfl, Nat.le_add_right _ _, Subset.refl _,
    Subset.refl _⟩

theorem Joined.consume (cx : Cx) (w : Write) : Joined ((s.write cx.ops w).consume cx) hand :=
  h.frame ⟨rfl, rfl, rfl, rfl, rfl, rfl, rfl, rfl, Nat.le_add_right _ _, Subset.refl _,
    Subset.refl _⟩

theorem Joined.remember (cx : Cx) (w : Write) : Joined ((s.cachePut cx).recordRecent cx w) hand :=
  h.frame ⟨rfl, rfl, rfl, rfl, rfl, rfl, rfl, rfl, le_rfl, Subset.refl _, Subset.refl _⟩

theorem Joined.persist (ids : List String) : Joined (s.fsync.persist ids) hand :=
  h.frame ⟨rfl, rfl, rfl, rfl, rfl, rfl, rfl, rfl, le_rfl,
    List.Subset.trans (subset_append_right _ _) (subset_append_right _ _), Subset.refl _⟩

end

theorem fsync_groups (hg : g ∈ s.unsynced) : g.ids ⊆ s.fsync.ghost.fsynced :=
  fun _ hid => mem_append_left _ (mem_flatMap.2 ⟨g, hg, hid⟩)

theorem Joined.persistRelease (h : Joined s hand) (cx : Cx) (hupto : cx.upto < s.nextSeq) :
    Joined (s.persistRelease cx) hand := by
  have hraised := (h.persist cx.ids).raise (max_lt h.marks.1 hupto)
    fun g hg => List.Subset.trans (fsync_groups (s := s) hg) (subset_append_right _ _)
  exact hraised.frame ⟨rfl, rfl, rfl, rfl, rfl, rfl, rfl, rfl, le_rfl, Subset.refl _, Subset.refl _⟩

theorem Joined.append (h : Joined s hand) (ids : List String) (p : Publish) :
    Joined (s.append ids p) hand := by
  refine h.frame ⟨rfl, rfl, rfl, rfl, rfl, rfl, rfl, rfl, le_rfl, Subset.refl _, ?_⟩
  show s.ghost.logged ⊆ if p = .ok then ids ++ s.ghost.logged else s.ghost.logged
  split
  · exact subset_append_right _ _
  · exact Subset.refl _

theorem Cx.ids_eq_nil (hfresh : cx.checked.fresh = []) : cx.ids = [] := by rw [Cx.ids, hfresh]; rfl

theorem Joined.settleReply {answers : List Answer} (h : Joined s (cx.calls.map Prod.fst))
    (hnone : ∀ env seq, .committed env seq ∉ answers) : Joined (s.settleReply cx answers) [] := by
  unfold State.settleReply
  split
  · exact Joined.wait h ⟨fun env seq hmem => absurd hmem (hnone env seq), fun _ => .inl rfl⟩
  · refine h.reply fun as has env seq hmem => ?_
    cases has
    exact absurd hmem (hnone env seq)

section

variable (h : Joined s (cx.calls.map Prod.fst)) (hsound : cx.Sound)
  (hfirst : cx.firstSeq = s.nextSeq)
include h hsound hfirst

/-- A group without records is written, or refused. -/
theorem Joined.diskCommit (hfresh : cx.checked.fresh ≠ []) (w : Write) :
    Joined (s.diskCommit cx w) [] := by
  have hmark := Cx.lt_upto hfirst hfresh h.marks.1
  have hconsumed := h.consume cx w
  unfold State.diskCommit
  split
  · have htracked := (hconsumed.remember cx w).track cx
      (fun g hg => Cx.lt_upto hfirst hfresh (h.marks.2.2 g hg)) (Cx.upto_lt hfirst hfresh)
    refine Joined.wait htracked ⟨fun env seq => hsound.committed, fun _ => .inr (.inr ⟨hmark, ?_⟩)⟩
    exact ⟨_, mem_cons_self, rfl, rfl⟩
  · exact hconsumed.replyError _ _ _

theorem Joined.dualCommit (hfresh : cx.checked.fresh ≠ []) (w : Write) :
    Joined (s.dualCommit cx w) [] := by
  have hmark := Cx.lt_upto hfirst hfresh h.marks.1
  have hstarted := h.startDual cx w
  unfold State.dualCommit
  split
  · have htracked := hstarted.track cx
      (fun g hg => Cx.lt_upto hfirst hfresh (h.marks.2.2 g hg)) (Cx.upto_lt hfirst hfresh)
    refine Joined.fly htracked
      ⟨hsound, nofun, fun _ _ => .inr ⟨hmark, ?_⟩, nofun, nofun⟩ (.inl rfl)
    exact ⟨_, mem_cons_self, rfl, rfl⟩
  · exact Joined.fly hstarted ⟨hsound, nofun, nofun, nofun, nofun⟩ (.inr rfl)

theorem Joined.commitGroup (gate : Bool) (w : Write) : Joined (s.commitGroup cx gate w) [] := by
  unfold State.commitGroup
  split
  next hfresh =>
    refine h.settleReply fun env seq hmem => ?_
    have hid := Cx.ids_eq_nil hfresh ▸ hsound.committed hmem
    cases hid
  next hfresh =>
    split
    · exact h.settleReply fun env seq hmem => Cx.not_committed_refused hmem
    · split
      · exact h.diskCommit hsound hfirst hfresh w
      · exact h.dualCommit hsound hfirst hfresh w

end

theorem Reply.Fits.release (hsound : cx.Sound) (hids : cx.ids ⊆ k.fsynced) (records : List Rec) :
    Reply.Fits k records true (.ok cx.committed) := by
  intro as has env seq hmem
  cases has
  exact ⟨hids (hsound.committed hmem), nofun⟩

theorem Joined.commitRelease (h : Joined s (cx.calls.map Prod.fst)) (hsound : cx.Sound)
    (hfirst : cx.firstSeq = s.nextSeq) (extra : List Op) (gate : Bool) (w : Write) (p : Publish) :
    Joined (s.commitRelease cx extra gate w p) [] := by
  unfold State.commitRelease
  split
  · exact h.replyError _ _ _
  split
  next hfresh =>
    have hwritten : Joined (s.write extra w) (cx.calls.map Prod.fst) :=
      h.frame ⟨rfl, rfl, rfl, rfl, rfl, rfl, rfl, rfl, le_rfl, Subset.refl _, Subset.refl _⟩
    split
    · refine Joined.reply (hwritten.persist []) (Reply.Fits.release hsound ?_ _)
      rw [Cx.ids_eq_nil hfresh]
      exact nil_subset _
    · exact hwritten.replyError _ _ _
  next hfresh =>
    split
    · exact h.replyError _ _ _
    split
    · dsimp only
      have hconsumed := h.consume cx w
      split
      · refine Joined.reply ((hconsumed.remember cx w).persistRelease cx (Cx.upto_lt hfirst hfresh))
          (Reply.Fits.release hsound (subset_append_left _ _) _)
      · exact hconsumed.replyError _ _ _
    · have hsent := (h.startDual cx w).append (cx.records.map Rec.id) p
      split
      · have hpersisted := hsent.persistRelease cx (Cx.upto_lt hfirst hfresh)
        exact Joined.reply (hpersisted.setTable _)
          (Reply.Fits.release hsound (subset_append_left _ _) _)
      · exact Joined.replyError (hsent.setTable _) _ _ _

section

variable (h : Joined s [])
include h

variable {b₀ : Batch}

/-- Both halves of a batch are in: its callers are answered. -/
theorem Joined.finishDual (hi : s.inflight[i]? = some b₀)
    (hcalls : b.callers = b₀.callers) (hb : b.Fits s.known) (now : Ms) :
    Joined (s.finishDual i b now) [] := by
  have hland := h.land hi
  rw [← hcalls] at hland
  unfold State.finishDual
  dsimp only
  split
  next p hlog =>
    have hlogged : b.cx.records.map Rec.id ⊆ s.ghost.logged := hb.log p (by cases hb : b.log with
      | none => simp [hb] at hlog
      | some => simpa [hb] using hlog)
    split
    next hstored =>
      refine Joined.reply (hland.setTable _) fun as has env seq hmem => ?_
      cases has
      refine ⟨hb.stored (by simpa using hstored) (hb.sound.committed hmem), fun _ _ x hx => ?_⟩
      exact hlogged (mem_map_of_mem hx)
    · refine Joined.reply (hland.setTable _) fun as has env seq hmem => ?_
      cases has
      exact absurd (hb.sound.half hmem).1 (by simp)
  · refine Joined.reply (hland.setTable _) fun as has env seq hmem => ?_
    cases has
    obtain ⟨hstored, hid, hseq⟩ := hb.sound.half hmem
    exact ⟨hb.stored (by simpa using hstored) hid, fun _ hin => absurd hin hseq⟩

theorem Joined.advance (hi : s.inflight[i]? = some b₀)
    (hcalls : b.callers = b₀.callers) (hb : b.Fits s.known) (now : Ms) :
    Joined (s.advance i b now) [] := by
  unfold State.advance
  split
  · next hopen => exact h.revise hi hcalls hb hopen
  · exact h.finishDual hi hcalls hb now

/-- A fence: what no fsync has covered was answered with the error. -/
theorem Joined.fence (ok : Bool) (mono : Ms) : Joined (s.fence ok mono) [] := by
  cases ok with
  | false =>
    exact h.frame ⟨rfl, rfl, rfl, rfl, rfl, rfl, rfl, rfl, le_rfl, Subset.refl _, Subset.refl _⟩
  | true =>
    -- A batch that is not undone is covered by the mark, so its hooks have been on disk.
    have hkept : ∀ ids upto, s.known.Covered ids upto → ¬ s.durableMark < upto →
        ids ⊆ s.ghost.fsynced := fun ids upto hc hmark => hc.resolve_right fun hr => hmark hr.1
    refine ⟨fun c => ?_, h.nodup, h.sent, fun b' hb' => ?_, fun x' hx' => ?_, .nil,
      max_lt h.marks.1 h.marks.2.1, h.marks.2.1, nofun⟩
    · refine Eq.trans ?_ (h.places c)
      have hcalls : ∀ l : List Batch, (l.map fun b =>
          if b.local_ = .pending ∧ s.durableMark < b.cx.upto then { b with undone := true }
            else b).flatMap Batch.callers = l.flatMap Batch.callers := by
        intro l
        rw [flatMap_map]
        congr 1
        funext b
        split <;> rfl
      have hwaits : ∀ l : List Waiting, (l.map fun x =>
          if s.durableMark < x.upto then { x with undone := true } else x).flatMap Waiting.callers =
            l.flatMap Waiting.callers := by
        intro l
        rw [flatMap_map]
        congr 1
        funext x
        split <;> rfl
      simp only [State.places, State.fence, if_true, hcalls, hwaits]
    · obtain ⟨b, hb, rfl⟩ := mem_map.1 hb'
      obtain ⟨hfits, hopen⟩ := h.flight b hb
      split
      · exact ⟨{ hfits with applied := nofun }, hopen⟩
      next hnot =>
        refine ⟨{ hfits with applied := fun hp hu => .inl ?_ }, hopen⟩
        exact hkept _ _ (hfits.applied hp hu) fun hlt => hnot ⟨hp, hlt⟩
    · obtain ⟨x, hx, rfl⟩ := mem_map.1 hx'
      have hfits := h.waiting x hx
      split
      · exact ⟨hfits.sound, nofun⟩
      next hnot =>
        exact ⟨hfits.sound, fun hu => (hfits.applied hu).imp id fun hc => .inl (hkept _ _ hc hnot)⟩

theorem Joined.prepare {call : Nat} (hcall : call ∉ s.ghost.begun) (c : Node.Call)
    (hc : c.id = call) (ids : List String) :
    Joined { s with
      queue := s.queue ++ [c]
      ghost := { s.ghost with begun := call :: s.ghost.begun, ids := ids ++ s.ghost.ids } } [] := by
  refine { h with places := fun c' => ?_, nodup := nodup_cons.2 ⟨hcall, h.nodup⟩ }
  have hplaces := h.places c'
  simp only [State.places, map_append, count_append, map_cons, map_nil, hc, count_cons,
    count_nil] at hplaces ⊢
  omega

theorem Joined.take (n : Nat) : Joined { s with queue := s.queue.drop n }
    ((s.queue.take n).map Node.Call.id) := by
  refine { h with places := fun c => ?_ }
  have hplaces := h.places c
  have hsplit : (s.queue.map Node.Call.id).count c = ((s.queue.take n).map Node.Call.id).count c +
      ((s.queue.drop n).map Node.Call.id).count c := by
    rw [← count_append, ← map_append, take_append_drop]
  simp only [State.places, count_nil] at hplaces ⊢
  omega

theorem Joined.completeLocal (batch : Nat) (w : Write) : Joined (s.completeLocal batch w) [] := by
  unfold State.completeLocal
  split
  · exact h
  split
  · exact h
  next hplan =>
    have hwritten : ∀ ops, Joined (s.write ops w) [] := fun ops =>
      h.frame ⟨rfl, rfl, rfl, rfl, rfl, rfl, rfl, rfl, le_rfl, Subset.refl _, Subset.refl _⟩
    split
    · exact ((hwritten _).persist _).setTable _
    · exact hwritten _

theorem Joined.republish (seqs : List Nat) (p : Publish) : Joined (s.republish seqs p) [] := by
  unfold State.republish
  split
  · exact (h.append _ p).setTable _
  · exact h.append _ p

theorem Joined.step {cfg : Config} (ev : Event) (hstep : Dual.step cfg s ev = some s') :
    Joined s' [] := by
  cases ev with
  | prepare =>
    obtain ⟨hok, rfl⟩ := guarded hstep
    exact h.prepare hok.1 _ rfl _
  | drop i =>
    obtain ⟨c, hi, rfl⟩ := Option.map_eq_some_iff.1 hstep
    have htaken :
        Joined { s with queue := s.queue.eraseIdx i } ([(c.id, c.items.length)].map Prod.fst) := by
      refine { h with places := fun c' => ?_ }
      have hplaces := h.places c'
      have hcount := count_flatMap_eraseIdx hi (fun c : Node.Call => [c.id]) c'
      simp only [← map_eq_flatMap] at hcount
      simp only [State.places, count_nil, map_cons, map_nil] at hplaces ⊢
      omega
    exact htaken.replyError _ _ _
  | group n now reads gate w =>
    obtain ⟨-, hstep⟩ := barred hstep
    have htaken := h.take n
    have hcalls : ((s.queue.take n).map fun c => (c.id, c.items.length)).map Prod.fst =
        (s.queue.take n).map Node.Call.id := by
      rw [map_map]
      rfl
    rw [← hcalls] at htaken
    rcases admitted_cases hstep with rfl | rfl | rfl
    · exact htaken.replyError _ _ _
    · exact htaken.replyError _ _ _
    · exact Joined.commitGroup htaken (State.cx_sound _ _ _ _ _ _) rfl gate w
  | release call items extra now reads gate w p =>
    obtain ⟨hok, hstep⟩ := passed hstep
    have hbegun : Joined { s with ghost := { s.ghost with begun := call :: s.ghost.begun } }
        ([(call, items.length)].map Prod.fst) := by
      refine { h with places := fun c => ?_, nodup := nodup_cons.2 ⟨hok.1, h.nodup⟩ }
      have hplaces := h.places c
      simp only [State.places, map_cons, map_nil, count_cons, count_nil] at hplaces ⊢
      omega
    rcases admitted_cases hstep with rfl | rfl | rfl
    · exact hbegun.replyError _ _ _
    · exact hbegun.replyError _ _ _
    · exact Joined.commitRelease hbegun (State.cx_sound _ _ _ _ _ _) rfl extra gate w p
  | publish i p =>
    obtain ⟨b, hi, hsent, rfl⟩ := flight_found hstep
    obtain ⟨hfits, hopen⟩ := (h.append (b.cx.records.map Rec.id) p).flight b (mem_of_getElem? hi)
    refine (h.append (b.cx.records.map Rec.id) p).revise hi rfl ?_ hopen
    refine { hfits with sent := fun q hq => ?_ }
    have hok : p = .ok := by
      by_contra hp
      simp [hp] at hq
    show b.cx.records.map Rec.id ⊆ (s.append (b.cx.records.map Rec.id) p).ghost.logged
    simp [State.append, hok]
  | result i now =>
    obtain ⟨b, hi, -, rfl⟩ := flight_found hstep
    have hfits := (h.flight b (mem_of_getElem? hi)).1
    exact h.advance (b := { b with log := b.sent }) hi rfl
      ⟨hfits.sound, hfits.stored, hfits.applied, hfits.sent, hfits.sent⟩ now
  | synced i ok now =>
    obtain ⟨b, hi, hok, rfl⟩ := flight_found hstep
    have hfits := (h.flight b (mem_of_getElem? hi)).1
    refine h.advance (b := { b with local_ := if ok then .ok else .failed }) hi rfl
      ⟨hfits.sound, fun hlocal => ?_, fun hlocal => ?_, hfits.sent, hfits.log⟩ now
    · cases ok with
      | false => cases hlocal
      | true =>
        obtain ⟨hundone, hmark⟩ := hok.2 rfl
        exact (hfits.applied hok.1 hundone).resolve_right fun hr => absurd hr.1 (not_lt.2 hmark)
    · cases ok <;> cases hlocal
  | answer i ok =>
    obtain ⟨x, hi, hok, rfl⟩ := waiting_found hstep
    have hfits := h.waiting x (mem_of_getElem? hi)
    have hland : Joined { s with waiting := s.waiting.eraseIdx i } (x.calls.map Prod.fst) := by
      refine { h with
        places := fun c => ?_
        waiting := fun x' hx' => h.waiting x' (mem_of_mem_eraseIdx hx') }
      have hc := h.places c
      have hcount := count_flatMap_eraseIdx hi Waiting.callers c
      simp only [State.places, Waiting.callers, count_nil] at hc hcount ⊢
      omega
    cases ok with
    | false => exact hland.replyError _ _ _
    | true =>
      refine hland.reply fun as has env seq hmem => ?_
      cases has
      obtain ⟨hundone, hmark⟩ := hok rfl
      have hid := hfits.sound env seq hmem
      refine ⟨?_, fun _ hin => absurd hin not_mem_nil⟩
      rcases hfits.applied hundone with hnil | hc
      · rw [hnil] at hid
        cases hid
      · exact hc.resolve_right (fun hr => absurd hr.1 (not_lt.2 hmark)) hid
  | fsync =>
    obtain ⟨hok, rfl⟩ := guarded hstep
    exact (h.persist []).raise (max_lt h.marks.1 (hok.2.trans_lt h.marks.2.1)) fun g hg =>
      fsync_groups hg
  | fence ok mono =>
    cases hstep
    exact h.fence ok mono
  | completeLocal batch w =>
    cases hstep
    exact h.completeLocal batch w
  | republish seqs p =>
    obtain ⟨-, rfl⟩ := guarded hstep
    exact h.republish seqs p
  | flush | delete | rotate =>
    cases hstep
    exact h.frame ⟨rfl, rfl, rfl, rfl, rfl, rfl, rfl, rfl, le_rfl, Subset.refl _, Subset.refl _⟩
  | table =>
    obtain ⟨-, hstep⟩ := passed hstep
    obtain ⟨sh, _, rfl⟩ := Option.map_eq_some_iff.1 hstep
    exact h.setTable _

end

/-- In every run, every call is in exactly one place, so it is answered at most once; a batch is in
    flight only while one of its halves is out, so its callers are answered when the second comes
    in; and a hook is answered as committed only once its rows have been on disk and, if it has a
    record and is not released from the quarantine, the log has confirmed every record of its
    batch. -/
theorem answered_once {cfg : Config} {es : List Event}
    (hrun : Run.exec (step cfg) .start es = some s) :
    (∀ c ∈ s.ghost.begun, s.places c = 1) ∧ (∀ b ∈ s.inflight, b.local_ = .pending ∨ b.log = none) ∧
    ∀ x ∈ s.ghost.sent, ∀ as, x.reply = .ok as → ∀ env seq, .committed env seq ∈ as →
      env.id ∈ s.ghost.fsynced ∧
      (x.release = false → seq ∈ x.records.map Rec.seq → ∀ r ∈ x.records,
        r.id ∈ s.ghost.logged) := by
  have h := exec_invariant (I :=
    fun s => Joined s []) (fun _ ev _ h hs => h.step ev hs) Joined.start hrun
  refine ⟨fun c hc => ?_, fun b hb => (h.flight b hb).2, h.sent⟩
  have hplaces := h.places c
  rw [count_eq_one_of_mem h.nodup hc] at hplaces
  simpa using hplaces

/-- A hook with a sink, and one that no sink wants and that is not archived. -/
def wanted : Item :=
  ⟨⟨"a", none, "stripe", none⟩, [1],
    [some (⟨"Http", .pending, 0, 0, none, 1, "stripe", none, none, none⟩, none)],
    none⟩

/-- A hook nobody is owed. -/
def unwanted : Item := ⟨⟨"b", none, "stripe", none⟩, [2], [none], none⟩

/-- A configuration with room for the runs below. -/
def small : Config := ⟨false, 10, ⟨100, 100⟩, 100⟩

/-- The rows of both are on disk before the log answers. -/
def joined (p : Publish) : List Event :=
  [.prepare 1 [wanted, unwanted] 0, .group 1 0 true true .ok, .fsync 2, .synced 0 true 1,
    .publish 0 p,
   .result 0 2]

theorem joined_answered : ∃ s, Run.exec (step small) .start (joined .ok) = some s ∧
    s.ghost.sent = [⟨1, .ok [.committed wanted.env 1, .committed unwanted.env 2],
      [⟨1, "a", [1], none⟩], false⟩] ∧ s.places 1 = 1 ∧ "a" ∈ s.ghost.fsynced ∧
        "a" ∈ s.ghost.logged := by
  obtain ⟨s, hs, hsent, hbegun⟩ := of_exec (f := step small) (s := .start) (l := joined .ok)
    (P := fun s => s.ghost.sent = [⟨1, .ok [.committed wanted.env 1, .committed unwanted.env 2],
      [⟨1, "a", [1], none⟩], false⟩] ∧ 1 ∈ s.ghost.begun) (by decide)
  obtain ⟨hplaces, _, hcommitted⟩ := answered_once hs
  obtain ⟨hid, hlog⟩ :=
    hcommitted _ (by rw [hsent]; exact mem_cons_self) _ rfl wanted.env 1 mem_cons_self
  exact ⟨s, hs, hsent, hplaces 1 hbegun, hid, hlog rfl (by decide) _ mem_cons_self⟩

/-- The log fails: the hook without a record is answered as committed, though a record of its batch
    is not in the log. -/
theorem joined_failed_committed :
    ∃ s, Run.exec (step small) .start (joined (.failed false)) = some s ∧
    s.ghost.sent = [⟨1, .ok [.error (.half true "a"), .committed unwanted.env 2],
      [⟨1, "a", [1], none⟩], false⟩] ∧ s.ghost.logged = [] :=
  of_exec (P := fun s : State => s.ghost.sent = [⟨1, .ok [.error (.half true "a"),
    .committed unwanted.env 2], [⟨1, "a", [1], none⟩], false⟩] ∧ s.ghost.logged = []) (by decide)

end Ankusa.Dual
