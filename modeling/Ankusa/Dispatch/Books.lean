import Ankusa.Dispatch.Window
import Mathlib.Data.List.Count

set_option autoImplicit false

/-! # The books of the window

The counters of the window are the jobs in it, and the rings are the queues that are not empty, in
every state of the process. Inside a handler some jobs are in hand, taken from a row, a pack or a
queue and not yet put down; while a tenant has its turn it is out of the outer ring, and the key it
tries is out of the tenant's. -/

namespace Ankusa.Dispatch

open List Slots Run

variable {s : State} {W jobs hand : List Job} {held : Option Nat} {hidden : Option SinkKey}

/-! ## Counters -/

/-- A tenant's entry for its jobs: a tenant without any has none. -/
def tally (jobs : List Job) : Option (Int × Int) :=
  if jobs = [] then none else some (jobs.length, Slots.total Job.size jobs)

theorem tally_cons (j : Job) (jobs : List Job) :
    tally (j :: jobs) = some ((jobs.length : Int) + 1,
      (j.size : Int) + Slots.total Job.size jobs) := by
  simp [tally]

variable {jobs' : List Job}

theorem tally_perm (h : jobs.Perm jobs') : tally jobs = tally jobs' := by
  have hnil : jobs = [] ↔ jobs' = [] := by
    rw [← length_eq_zero_iff, h.length_eq, length_eq_zero_iff]
  simp only [tally, hnil, h.length_eq, total_perm _ h]

/-- The counters of a window with `jobs`, all of them among `W`. -/
structure Booked (W : List Job) (claimed bytes : Int) (tenants : Nat → Option (Int × Int))
    (jobs : List Job) : Prop where
  agree : Agree W
  sub : jobs.Subperm W
  rows : claimed = jobs.length
  total : bytes = Slots.total Job.size jobs
  entries : ∀ o, tenants o = tally (jobs.filter fun j => j.ord = o)

/-- The window's counters count `jobs`. -/
abbrev State.Booked (s : State) (W jobs : List Job) : Prop :=
  Dispatch.Booked W s.claimed s.claimedBytes s.tenantClaimed jobs

theorem Agree.subset (h : Agree jobs) (hsub : jobs' ⊆ jobs) : Agree jobs' :=
  fun j hj j' hj' => h j (hsub hj) j' (hsub hj')

theorem Booked.perm {claimed bytes : Int} {tenants : Nat → Option (Int × Int)}
    (h : Booked W claimed bytes tenants jobs) (hp : jobs.Perm jobs') :
    Booked W claimed bytes tenants jobs' where
  agree := h.agree
  sub := hp.symm.subperm.trans h.sub
  rows := by rw [h.rows, hp.length_eq]
  total := by rw [h.total, total_perm _ hp]
  entries o := by rw [h.entries o, tally_perm (hp.filter _)]

variable {j : Job} {a : Attempt}

theorem Booked.leave (h : s.Booked W (j :: jobs)) : (leave s j).Booked W jobs where
  agree := h.agree
  sub := (sublist_cons_self j jobs).subperm.trans h.sub
  rows := by
    have := h.rows
    simp only [Dispatch.leave, tenantSub, length_cons] at this ⊢
    omega
  total := by
    have := h.total
    simp only [Dispatch.leave, tenantSub, total_cons] at this ⊢
    omega
  entries o := by
    have hold := h.entries o
    by_cases ho : j.ord = o
    · subst ho
      rw [filter_cons_of_pos (by simp), tally_cons] at hold
      simp only [Dispatch.leave, tenantSub, Function.update_self, hold, Option.bind_some, tally,
        ← length_eq_zero_iff]
      split <;> split <;> simp <;> omega
    · rw [filter_cons_of_neg (by simpa using ho)] at hold
      simpa [Dispatch.leave, tenantSub, Ne.symm ho] using hold

/-- The jobs of a claim enter their tenants' entries. -/
theorem tenantAdd_all (js : List Job)
    (h : ∀ o, s.tenantClaimed o = tally (jobs.filter fun j => j.ord = o)) :
    ∃ f, js.foldl tenantAdd s = { s with tenantClaimed := f } ∧
      ∀ o, f o = tally ((js ++ jobs).filter fun j => j.ord = o) := by
  induction js generalizing s jobs with
  | nil => exact ⟨_, rfl, h⟩
  | cons j js ih =>
    have hadd : ∀ o, (tenantAdd s j).tenantClaimed o =
        tally ((j :: jobs).filter fun x => x.ord = o) := by
      intro o
      by_cases ho : j.ord = o
      · subst ho
        rw [filter_cons_of_pos (by simp), tally_cons]
        simp only [tenantAdd, Function.update_self, h]
        cases jobs.filter fun x => x.ord = j.ord with
        | nil => simp [tally]
        | cons => simp [tally_cons, Int.add_comm]
      · rw [filter_cons_of_neg (by simpa using ho), ← h o]
        simp [tenantAdd, Ne.symm ho]
    obtain ⟨f, hf, hall⟩ := ih hadd
    exact ⟨f, hf, fun o => (hall o).trans (tally_perm (perm_middle.filter _))⟩

/-- The running counts of the counted attempts. -/
structure Counted (running : List Attempt) (all : Int) (byKey : SinkKey → Int)
    (byTenant : Nat → Int) : Prop where
  all : all = running.countP Attempt.counted
  key : ∀ k, byKey k = running.countP fun a => a.counted && a.job.key = k
  tenant : ∀ o, byTenant o = running.countP fun a => a.counted && a.job.ord = o

/-- The counters of running attempts count `running`. -/
abbrev State.Counted (s : State) (running : List Attempt) : Prop :=
  Dispatch.Counted running s.runningCounted s.runningByKey s.runningByTenant

/-- An attempt starts, or ends. -/
theorem Counted.count {running running' : List Attempt} {n : Int} (h : s.Counted running)
    (hone : n = 1 ∧ running' = a :: running ∨ n = -1 ∧ running.Perm (a :: running')) :
    (count s a.job n).Counted running' := by
  have hmove (p : Attempt → Bool) : (running'.countP p : Int) = running.countP p + if p a then n
      else 0 := by
    obtain ⟨rfl, rfl⟩ | ⟨rfl, hrun⟩ := hone
    · rw [countP_cons]
      split <;> simp
    · rw [hrun.countP_eq, countP_cons]
      split <;> simp
  refine ⟨?_, fun k => ?_, fun o => ?_⟩
  · simp only [Dispatch.count, h.all, hmove, Attempt.counted]
    grind
  · have := h.key k
    simp only [Dispatch.count, hmove, Attempt.counted, Function.update_apply] at this ⊢
    grind
  · have := h.tenant o
    simp only [Dispatch.count, hmove, Attempt.counted, Function.update_apply] at this ⊢
    grind

/-! ## Rings -/

/-- A tenant's ring holds its keys with queued jobs, once each and without the hidden one. -/
structure Keyed (hidden : Option SinkKey) (queues : List Job) (rings : List (Nat × SinkKey)) :
    Prop where
  nodup : rings.Nodup
  mem : ∀ o k, (o, k) ∈ rings ↔ hidden ≠ some k ∧ ∃ j ∈ queues, j.ord = o ∧ j.key = k

/-- The outer ring holds the tenants with such a key, once each and without the held one. -/
structure Seated (held : Option Nat) (rings : List (Nat × SinkKey)) (ring : List Nat) : Prop where
  nodup : ring.Nodup
  mem : ∀ o, o ∈ ring ↔ held ≠ some o ∧ ∃ k, (o, k) ∈ rings

theorem any_ord {rings : List (Nat × SinkKey)} {o : Nat} :
    (rings.any fun e => e.1 = o) = true ↔ ∃ k, (o, k) ∈ rings := by
  simp

/-- The window with `hand` in hand. -/
structure Windowed (W : List Job) (held : Option Nat) (hidden : Option SinkKey) (s : State)
    (hand : List Job) : Prop where
  booked : s.Booked W (s.jobs ++ hand)
  keyed : Keyed hidden s.queues s.rings
  seated : Seated held s.rings s.ring
  counted : s.Counted s.running

theorem Windowed.ord_eq (h : Windowed W held hidden s hand) {j' : Job} (hj : j ∈ s.jobs ++ hand)
    (hj' : j' ∈ s.jobs ++ hand) (hkey : j.key = j'.key) : j.ord = j'.ord :=
  h.booked.agree j (h.booked.sub.subset hj) j' (h.booked.sub.subset hj')
    (congrArg SinkKey.tenant hkey)

theorem mem_jobs_of_queued (hj : j ∈ s.queues) : j ∈ s.jobs ++ hand :=
  mem_append_left _ (mem_append_left _ hj)

theorem Windowed.park (h : Windowed W held hidden s (j :: hand)) (time : Ms) :
    Windowed W held hidden (park s j time) hand :=
  { h with
    booked := (h.booked.perm perm_middle).leave }

theorem Windowed.parkAll (js : List Job) (time : Ms) (h : Windowed W held hidden s (js ++ hand)) :
    Windowed W held hidden (js.foldl (fun s j => Dispatch.park s j time) s) hand := by
  induction js generalizing s with
  | nil => exact h
  | cons j js ih => exact ih (h.park time)

variable {key : SinkKey}

open Windowed

theorem Windowed.parkJobs (h : Windowed W held (some key) s hand) (time : Ms) :
    Windowed W held none (parkJobs s key time) hand := by
  refine parkAll _ time ⟨h.booked.perm ?_, ⟨h.keyed.nodup, fun o k => ?_⟩, h.seated, h.counted⟩
  · have hsplit := filter_append_perm (fun j : Job => j.key ≠ key) s.queues
    rw [perm_iff_count] at hsplit ⊢
    intro x
    have := hsplit x
    simp only [State.jobs, count_append, ne_eq, decide_not, Bool.not_not] at this ⊢
    omega
  · rw [h.keyed.mem o k]
    constructor
    · rintro ⟨hk, j, hj, ho, rfl⟩
      exact ⟨nofun, j, mem_filter.2 ⟨hj, by simpa using fun heq => hk (congrArg some heq.symm)⟩, ho,
        rfl⟩
    · rintro ⟨-, j, hj, ho, rfl⟩
      obtain ⟨hj, hk⟩ := mem_filter.1 hj
      exact ⟨fun heq => by simp_all, j, hj, ho, rfl⟩

theorem admission_frame (s : State) (key : SinkKey) (c : Clock) :
    ∃ breakers started, (admission s key c).2 = { s with
      breakers := breakers
      started := started } := by
  unfold admission
  split
  · split
    · split <;> exact ⟨_, _, rfl⟩
    · split <;> exact ⟨_, _, rfl⟩
    · exact ⟨_, _, rfl⟩
  · exact ⟨_, _, rfl⟩

theorem Windowed.admission (h : Windowed W held hidden s hand) (key : SinkKey) (c : Clock) :
    Windowed W held hidden (admission s key c).2 hand := by
  obtain ⟨_, _, heq⟩ := admission_frame s key c
  rw [heq]
  exact { h with }

section Rings

variable {queues : List Job} {rings : List (Nat × SinkKey)} {ring : List Nat} {o : Nat}
  {k : SinkKey}

theorem Keyed.out (h : Keyed none queues rings) (hord : ∀ j ∈ queues, j.key = k → j.ord = o) :
    Keyed (some k) queues (rings.erase (o, k)) := by
  refine ⟨h.nodup.erase _, fun o' k' => ?_⟩
  rw [h.nodup.mem_erase_iff, h.mem]
  grind

/-- A key goes back if it has a job. -/
theorem Keyed.back (h : Keyed (some k) queues rings) (hord : ∀ j ∈ queues, j.key = k → j.ord = o) :
    Keyed none queues (if queues.any fun j => j.key = k then rings ++ [(o, k)] else rings) := by
  have hnew : (o, k) ∉ rings := fun hin => ((h.mem o k).1 hin).1 rfl
  split
  next hany =>
    obtain ⟨j, hj, hkey⟩ := any_eq_true.1 hany
    refine ⟨nodup_append.2 ⟨h.nodup, nodup_singleton _, ?_⟩, fun o' k' => ?_⟩
    · rintro e he _ hin rfl
      exact hnew (mem_singleton.1 hin ▸ he)
    · simp only [mem_append, h.mem, mem_singleton, Prod.mk.injEq]
      grind
  next hnone =>
    refine ⟨h.nodup, fun o' k' => (h.mem o' k').trans ?_⟩
    grind

theorem Keyed.queue {queues' : List Job} (h : Keyed (some k) queues rings)
    (hrest : ∀ j, j.key ≠ k → (j ∈ queues' ↔ j ∈ queues)) : Keyed (some k) queues' rings :=
  ⟨h.nodup, fun o' k' => (h.mem o' k').trans (by grind)⟩

theorem Seated.out (h : Seated (some o) rings ring) :
    Seated (some o) (rings.erase (o, k)) ring := by
  refine ⟨h.nodup, fun o' => (h.mem o').trans (and_congr_right fun ho => exists_congr fun k' => ?_)⟩
  rw [mem_erase_of_ne]
  exact fun heq => ho (congrArg some (Prod.mk.inj heq).1.symm)

theorem Seated.back (h : Seated (some o) rings ring) : Seated (some o) (rings ++ [(o, k)]) ring :=
  ⟨h.nodup, fun o' => (h.mem o').trans (by simp; grind)⟩

theorem Seated.join (h : Seated none rings ring) :
    Seated none (rings ++ [(o, k)]) (if rings.any fun e => e.1 = o then ring else ring ++ [o]) := by
  split
  next hany =>
    exact ⟨h.nodup, fun o' => (h.mem o').trans (by simp; grind)⟩
  next hnone =>
    have hnone := mt any_ord.2 hnone
    refine ⟨nodup_append.2 ⟨h.nodup, nodup_singleton o, ?_⟩, fun o' => ?_⟩
    · rintro x hx _ ho rfl
      cases mem_singleton.1 ho
      exact hnone ((h.mem _).1 hx).2
    · simp only [mem_append, h.mem, mem_singleton, Prod.mk.injEq]
      grind

/-- A key leaves a ring, and its tenant the outer ring with its last one. -/
theorem Seated.drop (h : Seated none rings ring) : Seated none (rings.erase (o, k))
    (if (rings.erase (o, k)).any fun e => e.1 = o then ring else ring.erase o) := by
  have hother : ∀ o' ≠ o, ∀ k', (o', k') ∈ rings.erase (o, k) ↔ (o', k') ∈ rings := fun o' ho k' =>
    mem_erase_of_ne fun heq => ho (Prod.mk.inj heq).1
  split
  next hany =>
    obtain ⟨k', hk'⟩ := any_ord.1 hany
    refine ⟨h.nodup, fun o' => (h.mem o').trans ?_⟩
    have := mem_of_mem_erase hk'
    grind
  next hnone =>
    refine ⟨h.nodup.erase o, fun o' => ?_⟩
    rw [h.nodup.mem_erase_iff, h.mem]
    grind

theorem Seated.finish (h : Seated (some o) rings ring) :
    Seated none rings (if rings.any fun e => e.1 = o then ring ++ [o] else ring) := by
  split
  next hany =>
    refine ⟨nodup_append.2 ⟨h.nodup, nodup_singleton o, ?_⟩, fun o' => ?_⟩
    · rintro x hx _ ho rfl
      cases mem_singleton.1 ho
      exact ((h.mem _).1 hx).1 rfl
    · simp only [mem_append, h.mem, mem_singleton]
      grind
  next hnone =>
    exact ⟨h.nodup, fun o' => (h.mem o').trans (by grind)⟩

end Rings

theorem Windowed.push (h : Windowed W none none s (j :: hand)) :
    Windowed W none none (push s j) hand := by
  have hord : ∀ x ∈ s.queues ++ [j], x.key = j.key → x.ord = j.ord := by
    have hj : j ∈ s.jobs ++ j :: hand := mem_append_right _ mem_cons_self
    exact forall_mem_append.2 ⟨fun x hx => h.ord_eq (mem_jobs_of_queued hx) hj,
      forall_mem_singleton.2 fun _ => rfl⟩
  have hbooked :
    Booked W s.claimed s.claimedBytes s.tenantClaimed ((s.queues ++ [j] ++ (s.packing.flatten ++
      (s.waiting ++ s.running.map Attempt.job))) ++ hand) := by
    refine h.booked.perm (perm_iff_count.2 fun x => ?_)
    simp only [State.jobs, count_append, count_cons, count_nil]
    omega
  have hqueued : (s.queues ++ [j]).any (fun x => x.key = j.key) = true := by simp
  unfold Dispatch.push
  split
  next hany =>
    -- The key is in the ring for the jobs before this one.
    obtain ⟨x, hx, hkey⟩ := any_eq_true.1 hany
    refine ⟨hbooked, ⟨h.keyed.nodup, fun o k => (h.keyed.mem o k).trans ?_⟩, h.seated, h.counted⟩
    grind
  next hnone =>
    have hhidden : Keyed (some j.key) (s.queues ++ [j]) s.rings := by
      refine ⟨h.keyed.nodup, fun o k => (h.keyed.mem o k).trans ?_⟩
      grind
    have hback := hhidden.back hord
    rw [if_pos hqueued] at hback
    exact ⟨hbooked, hback, h.seated.join, h.counted⟩

theorem Windowed.enqueue (c : Job → Clock) (h : Windowed W none none s (j :: hand)) :
    Windowed W none none (enqueue c s j) hand := by
  have hadmitted := h.admission j.key (c j)
  unfold Dispatch.enqueue
  split
  next heq =>
    rw [heq] at hadmitted
    exact hadmitted.park _
  next heq =>
    rw [heq] at hadmitted
    exact hadmitted.push

theorem Windowed.enqueueAll (c : Job → Clock) (js : List Job)
    (h : Windowed W none none s (js ++ hand)) :
    Windowed W none none (js.foldl (Dispatch.enqueue c) s) hand := by
  induction js generalizing s with
  | nil => exact h
  | cons j js ih => exact ih (h.enqueue c)

theorem Windowed.stage (h : Windowed W none none s []) (jobs : List Job) (c : Job → Clock)
    (hagree : Agree (jobs ++ s.jobs)) :
    Windowed (jobs ++ s.jobs) none none (stage s jobs c) [] := by
  have hnil : s.Booked W s.jobs := append_nil s.jobs ▸ h.booked
  unfold Dispatch.stage
  dsimp only
  obtain ⟨f, hf, hentries⟩ := tenantAdd_all (s := { s with
      claimed := s.claimed + jobs.length
      claimedBytes := s.claimedBytes + Slots.total Job.size jobs }) jobs hnil.entries
  rw [hf]
  have hsplit := (filter_append_perm (fun j : Job => !j.packs) jobs).symm
  simp only [Bool.not_not] at hsplit
  have hin : Windowed (jobs ++ s.jobs) none none { s with
      claimed := s.claimed + jobs.length
      claimedBytes := s.claimedBytes + Slots.total Job.size jobs
      tenantClaimed := f } ((jobs.filter fun j => !j.packs) ++ jobs.filter Job.packs) := by
    refine { h with booked := Booked.perm ⟨hagree, .refl _, ?_, ?_, hentries⟩ ?_ }
    · simp [hnil.rows, Int.add_comm]
    · simp [hnil.total, Int.add_comm]
    · exact perm_append_comm.trans (hsplit.append_left _)
  have hq := hin.enqueueAll c
  generalize List.foldl _ _ _ = t at hq ⊢
  have hpart (x : Job) :=
    (filter_append_perm (fun j : Job => j.seq ∈ t.packingSeqs) (jobs.filter Job.packs)).count_eq x
  have hflip : (fun j : Job => !decide (j.seq ∈ t.packingSeqs)) =
      fun j => decide (j.seq ∉ t.packingSeqs) := by
    simp
  simp only [hflip] at hpart
  split
  next hempty =>
    refine { hq with booked := hq.booked.perm (perm_iff_count.2 fun x => ?_) }
    have := hpart x
    rw [hempty] at this
    simp only [State.jobs, count_append, count_reverse, count_nil] at this ⊢
    omega
  next =>
    refine { hq with booked := hq.booked.perm (perm_iff_count.2 fun x => ?_) }
    have := hpart x
    simp only [State.jobs, count_append, count_reverse, flatten_append, flatten_cons, flatten_nil,
      append_nil] at this ⊢
    omega

theorem release_count (seqs : List Nat) (waiting released : List Job) (x : Job) :
    (release seqs waiting released).1.count x + (release seqs waiting released).2.count x =
      waiting.count x + released.count x := by
  induction seqs generalizing waiting released with
  | nil => rfl
  | cons seq seqs ih =>
    have hsplit := (filter_append_perm (fun j : Job => j.seq = seq) waiting).count_eq x
    rw [release, ih]
    simp only [count_append, ne_eq, decide_not] at hsplit ⊢
    omega

theorem Windowed.packed {i : Nat} (h : Windowed W none none s []) (hi : s.packing[i]? = some jobs)
    (c : Job → Clock) : Windowed W none none (packed s i jobs c) [] := by
  refine enqueueAll c _ { h with booked := h.booked.perm (perm_iff_count.2 fun x => ?_) }
  have hpack := ((perm_eraseIdx hi).flatten).count_eq x
  have hwait := release_count (jobs.map Job.seq) s.waiting [] x
  simp only [State.jobs, count_append, flatten_cons, count_nil] at hpack hwait ⊢
  omega

/-- Finding the rows of a claim moves no job; those it makes are of the rows. -/
theorem Windowed.resolve (h : Windowed W none none s []) (now : Ms) (c : Job → Clock)
    (rows : List (Job × Bool)) :
    Windowed W none none (resolve now c s rows).1 [] ∧ (resolve now c s rows).1.jobs = s.jobs ∧
      (resolve now c s rows).2.Sublist (rows.map Prod.fst) := by
  induction rows generalizing s with
  | nil => exact ⟨h, rfl, .refl _⟩
  | cons row rows ih =>
    have hadmitted := h.admission row.1.key (c row.1)
    have hjobs : (Dispatch.admission s row.1.key (c row.1)).2.jobs = s.jobs := by
      obtain ⟨_, _, hframe⟩ := admission_frame s row.1.key (c row.1)
      rw [hframe]
      rfl
    rw [Dispatch.resolve]
    split
    next t heq =>
      rw [heq] at hadmitted hjobs
      split
      · obtain ⟨hrest, hsame, hsub⟩ := ih hadmitted
        exact ⟨hrest, hsame.trans hjobs, hsub.cons _⟩
      · obtain ⟨hrest, hsame, hsub⟩ := ih (s := { t with parked := _ :: t.parked })
          { hadmitted with }
        exact ⟨hrest, hsame.trans hjobs, hsub.cons _⟩
    next heq =>
      rw [heq] at hadmitted hjobs
      obtain ⟨hrest, hsame, hsub⟩ := ih hadmitted
      refine ⟨hrest, hsame.trans hjobs, ?_⟩
      split
      · exact hsub.cons_cons _
      · exact hsub.cons _

/-! ## Turns and outcomes -/

theorem Windowed.startOne {o : Nat} (h : Windowed W (some o) (some key) s [])
    (hord : ∀ j ∈ s.queues, j.key = key → j.ord = o) :
    Windowed W (some o) none (startOne s o key) [] := by
  unfold Dispatch.startOne
  split
  next hnone =>
    have hempty : (s.queues.any fun j => j.key = key) = false := by simpa using hnone
    have hback := h.keyed.back hord
    rw [if_neg (by simp [hempty])] at hback
    exact { h with keyed := hback }
  next j hj =>
    have hkey : j.key = key := by simpa using find?_some hj
    have hin : j ∈ s.queues := mem_of_find?_eq_some hj
    have hrest : ∀ x, x.key ≠ key → (x ∈ s.queues.erase j ↔ x ∈ s.queues) := fun x hx =>
      mem_erase_of_ne fun heq => hx (heq ▸ hkey)
    have hback := (h.keyed.queue hrest).back fun x hx => hord x (mem_of_mem_erase hx)
    refine ⟨h.booked.perm (perm_iff_count.2 fun x => ?_), hback, ?_,
      h.counted.count (.inl ⟨rfl, rfl⟩)⟩
    · have := (perm_cons_erase hin).count_eq x
      simp only [State.jobs, Dispatch.count, count_append, map_cons, count_cons,
        count_nil] at this ⊢
      omega
    · dsimp only [Dispatch.count]
      split
      · exact h.seated.back
      · exact h.seated

theorem Windowed.finishTenant {o : Nat} (h : Windowed W (some o) none s []) :
    Windowed W none none (finishTenant s o) [] :=
  { h with seated := h.seated.finish }

theorem Windowed.startFromTenant {o : Nat} (h : Windowed W (some o) none s []) (c : Nat → Clock)
    (turns : Nat) : Windowed W none none (startFromTenant c o s turns) [] := by
  induction turns generalizing s with
  | zero => exact h.finishTenant
  | succ turns ih =>
    rw [Dispatch.startFromTenant]
    split
    · exact h.finishTenant
    next o' key hfind =>
      obtain rfl : o' = o := by simpa using find?_some hfind
      obtain ⟨-, j, hj, ho, hkey⟩ := (h.keyed.mem o' key).1 (mem_of_find?_eq_some hfind)
      have hord : ∀ x ∈ s.queues, x.key = key → x.ord = o' := fun x hx hx' =>
        ho ▸ h.ord_eq (mem_jobs_of_queued hx) (mem_jobs_of_queued hj) (hx'.trans hkey.symm)
      have hout : Windowed W (some o') (some key) { s with rings := s.rings.erase (o', key) } [] :=
        ⟨h.booked, h.keyed.out hord, h.seated.out, h.counted⟩
      have hadmitted := hout.admission key (c turns)
      have hqueues :
        (Dispatch.admission { s with rings := s.rings.erase (o', key) } key (c turns)).2.queues =
          s.queues := by
        obtain ⟨_, _, hframe⟩ :=
          admission_frame { s with rings := s.rings.erase (o', key) } key (c turns)
        rw [hframe]
      dsimp only
      split
      next heq =>
        rw [heq] at hadmitted
        exact ih (hadmitted.parkJobs _)
      next heq =>
        rw [heq] at hadmitted hqueues
        rw [← hqueues] at hord hj
        split
        · have hback := hadmitted.keyed.back hord
          rw [if_pos (any_eq_true.2 ⟨j, hj, decide_eq_true hkey⟩)] at hback
          exact ih ⟨hadmitted.booked, hback, hadmitted.seated.back, hadmitted.counted⟩
        · exact (hadmitted.startOne hord).finishTenant

theorem Windowed.parkQueued {o : Nat} (h : Windowed W none none s [])
    (hord : ∀ j ∈ s.queues, j.key = key → j.ord = o) (time : Ms) :
    Windowed W none none (parkQueued s o key time) [] := by
  unfold Dispatch.parkQueued
  split
  next hany =>
    obtain ⟨j, hj, hkey⟩ := any_eq_true.1 hany
    have hkey := of_decide_eq_true hkey
    have hseat : ∃ k, (o, k) ∈ s.rings :=
      ⟨key, (h.keyed.mem o key).2 ⟨nofun, j, hj, hord j hj hkey, hkey⟩⟩
    refine parkJobs ?_ time
    rw [dropKey, if_pos (any_ord.2 hseat)]
    exact ⟨h.booked, h.keyed.out hord, h.seated.drop, h.counted⟩
  next => exact h

theorem Windowed.trip (h : Windowed W none none s [])
    (hord : ∀ j ∈ s.queues, j.key = a.job.key → j.ord = a.job.ord) (o : Outcome) (c : Clock) :
    Windowed W none none (trip s a o c) [] := by
  have hset (breakers : SinkKey → Option Breaker) :
      Windowed W none none { s with breakers := breakers } [] := { h with }
  cases o with
  | ok => exact hset _
  | permanent =>
    simp only [Dispatch.trip]
    split
    · exact h
    · split
      · exact hset _
      · exact h
  | failed =>
    simp only [Dispatch.trip]
    split
    · exact h
    · split
      · refine parkQueued ?_ ?_ _
        · exact hset _
        · exact hord
      · exact hset _

/-- The jobs a step brings into the window. -/
def taken (s : State) : Event → List Job
  | .claim rows now found _ => (resolve now found s rows).2
  | _ => []

/-- The window as it is. -/
abbrev State.Kept (s : State) : Prop := Windowed s.jobs none none s []

theorem Windowed.kept (h : Windowed W none none s []) : s.Kept := by
  have hsub : s.jobs ⊆ W := (append_nil s.jobs ▸ h.booked.sub).subset
  refine { h with booked :=
    ⟨h.booked.agree.subset hsub, ?_, h.booked.rows, h.booked.total, h.booked.entries⟩ }
  rw [append_nil]

theorem Windowed.step {e : Event} {t : State} (h : s.Kept) (hstep : step s e = some t) :
    Windowed (taken s e ++ s.jobs) none none t [] := by
  cases e with
  | claim rows now found queued =>
    simp only [Dispatch.step] at hstep
    split at hstep <;> cases hstep
    next hagree =>
      obtain ⟨hfound, hjobs, hsub⟩ := h.resolve now found rows
      rw [taken, ← hjobs]
      refine hfound.stage _ queued (hagree.subset ?_)
      rw [hjobs]
      exact append_subset.2 ⟨fun j hj => mem_append_left _ (hsub.subset hj),
        subset_append_right _ _⟩
  | packed i c =>
    obtain ⟨jobs, hi, rfl⟩ := Option.map_eq_some_iff.1 hstep
    exact h.packed hi c
  | turn c =>
    simp only [Dispatch.step, turn] at hstep
    split at hstep
    · cases hstep
    next o ring hring =>
      have hseated := hring ▸ h.seated
      split at hstep
      · cases hstep
      split at hstep <;> cases hstep
      · refine { h with seated := ⟨?_, fun o' => ?_⟩ }
        · exact (perm_append_singleton o ring).nodup_iff.2 hseated.nodup
        · exact ((perm_append_singleton o ring).mem_iff).trans (hseated.mem o')
      refine startFromTenant ?_ c _
      refine { h with seated := ⟨hseated.nodup.of_cons, fun o' => ?_⟩ }
      have hmem := hseated.mem o'
      have hout := (nodup_cons.1 hseated.nodup).1
      rw [mem_cons] at hmem
      grind
  | outcome i o c =>
    obtain ⟨a, ha, rfl⟩ := Option.map_eq_some_iff.1 hstep
    have hperm := perm_eraseIdx ha
    have hin : a.job ∈ s.jobs ++ [] := by
      simp only [State.jobs, mem_append, mem_map]
      exact .inl (.inr (.inr (.inr ⟨a, mem_of_getElem? ha, rfl⟩)))
    have hleft : Booked s.jobs s.claimed s.claimedBytes s.tenantClaimed
      (a.job :: (s.queues ++ (s.packing.flatten ++
        (s.waiting ++ (s.running.eraseIdx i).map Attempt.job)) ++ [])) := by
      refine h.booked.perm (perm_iff_count.2 fun x => ?_)
      have := (hperm.map Attempt.job).count_eq x
      simp only [State.jobs, count_append, map_cons, count_cons] at this ⊢
      omega
    refine Windowed.trip ?_ ?_ o c
    · refine ⟨?_, h.keyed, h.seated, ?_⟩
      · exact Booked.leave hleft
      · exact Counted.count h.counted (.inr ⟨rfl, hperm⟩)
    · exact fun j hj => h.ord_eq (mem_jobs_of_queued hj) hin
  | reconfigure =>
    cases hstep
    exact { h with }

theorem Windowed.start (cfg : Config) : (State.start cfg).Kept :=
  ⟨⟨nofun, .refl _, rfl, rfl, fun _ => rfl⟩, ⟨nodup_nil, by simp [State.start]⟩,
    ⟨nodup_nil, by simp [State.start]⟩, ⟨rfl, fun _ => rfl, fun _ => rfl⟩⟩

/-- `x` is in the list exactly once if `p`, and not at all otherwise. -/
def Once {α : Type} [DecidableEq α] (x : α) (xs : List α) (p : Prop) : Prop :=
  (p → xs.count x = 1) ∧ (¬p → x ∉ xs)

theorem once_of_nodup {α : Type} [DecidableEq α] {x : α} {xs : List α} {p : Prop} (h : xs.Nodup)
    (hmem : x ∈ xs ↔ p) : Once x xs p :=
  ⟨fun hp => count_eq_one_of_mem h (hmem.2 hp), mt hmem.1⟩

theorem window_books {cfg : Config} {es : List Event}
    (hrun : Run.exec step (.start cfg) es = some s) :
    s.claimed = s.jobs.length ∧ s.claimedBytes = Slots.total Job.size s.jobs ∧
    (∀ o, s.tenantClaimed o = tally (s.jobs.filter fun j => j.ord = o)) ∧
    (∀ o k, Once (o, k) s.rings (∃ j ∈ s.queues, j.ord = o ∧ j.key = k)) ∧
    (∀ o, Once o s.ring (∃ k, (o, k) ∈ s.rings)) ∧
    (∀ k, s.runningByKey k = s.running.countP fun a => !a.job.batched && a.job.key = k) ∧
    ∀ o, s.runningByTenant o = s.running.countP fun a => !a.job.batched && a.job.ord = o := by
  have h : s.Kept :=
    exec_invariant (fun _ _ _ h hstep => (Windowed.step h hstep).kept) (.start cfg) hrun
  have hbooked := h.booked.perm (.of_eq (append_nil s.jobs))
  refine ⟨hbooked.rows, hbooked.total, hbooked.entries, fun o k => ?_, fun o => ?_, h.counted.key,
    h.counted.tenant⟩
  · exact once_of_nodup h.keyed.nodup ((h.keyed.mem o k).trans (by simp))
  · exact once_of_nodup h.seated.nodup ((h.seated.mem o).trans (by simp))

/-- A job of a batching sink. -/
def batching (seq : Nat) (packs : Bool) (sink : Nat) : Job :=
  ⟨⟨"t", "src", sink, "Batch"⟩, 1, seq, 5, ⟨0, 0⟩, 100, packs, true⟩

/-- Two hooks of a batching sink, a body to pack and a job that waits for it. -/
def batched : List Event :=
  [.claim [(batching 1 false 0, true), (batching 2 false 0, true),
    (batching 3 true 0, true)] 0 (fun _ => ⟨0, 0⟩)
      fun _ => ⟨0, 0⟩,
    .claim [(batching 3 true 1, true)] 0 (fun _ => ⟨0, 0⟩) fun _ => ⟨0, 0⟩, .turn fun _ => ⟨0, 0⟩]

/-- A configuration that starts every job at once. -/
def unlimited : Config := ⟨8, none, fun _ => 8, 5, 10, 100⟩

theorem batched_books : ∃ s, Run.exec step (.start unlimited) batched = some s ∧
    s.queues = [batching 2 false 0] ∧
    s.packing = [[batching 3 true 0]] ∧ s.waiting = [batching 3 true 1] ∧ s.running.length = 1 ∧
    s.claimed = s.jobs.length ∧ Once 1 s.ring (∃ k, (1, k) ∈ s.rings) := by
  obtain ⟨s, hrun, hqueues, hpacking, hwaiting, hrunning⟩ :
    ∃ s, exec step (.start unlimited) batched = some s ∧
      s.queues = [batching 2 false 0] ∧ s.packing = [[batching 3 true 0]] ∧
      s.waiting = [batching 3 true 1] ∧
      s.running.length = 1 :=
    of_exec (by decide +kernel)
  obtain ⟨hclaimed, -, -, -, hring, -⟩ := window_books hrun
  exact ⟨s, hrun, hqueues, hpacking, hwaiting, hrunning, hclaimed, hring 1⟩

/-- The attempt of a batching sink runs and is counted nowhere. -/
theorem batched_uncounted : ∃ s, Run.exec step (.start unlimited) batched = some s ∧
    (s.running.map fun a => a.job) = [batching 1 false 0] ∧
    s.runningByKey (batching 1 false 0).key = 0 ∧ s.runningByTenant 1 = 0 :=
  of_exec (by decide +kernel)

end Ankusa.Dispatch
