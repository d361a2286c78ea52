import Ankusa.Dispatch.Books
import Ankusa.Queue.Deliveries

set_option autoImplicit false

/-! # Filling the window

A scan claims due rows up to the room of the window, in passes over the active tenants: every tenant
of a pass is read one page of its share, within its own window. What is left of the scan's page is
counted down by the rows read, which are at least the jobs they make. A page stops before the row
that breaks its byte budget, except at its first row.

The hooks of an ordinal are of its tenant. A scan is taken step by step here, and nothing else
happens until it is over; every page is of an arbitrary store. -/

namespace Ankusa.Dispatch

open List Option Slots Run

open Slots (total)

/-- A window. -/
structure Limits where
  maxInflight : Nat
  maxInflightBytes : Nat

/-- The windows of the node and of its tenants. -/
structure Windows where
  batch : Nat
  node : Limits
  default : Limits
  overrides : String → Option Limits

/-- The window of a tenant. -/
def Windows.own (w : Windows) (tenant : String) : Limits := (w.overrides tenant).getD w.default

/-- What a scan has left to claim. -/
structure Scan where
  left : Int
  budget : Int
  claimed : Nat
  share : Int
  /-- The tenants still to visit in this pass, and those for the next. -/
  todo : List Nat
  wanting : List Nat

/-- The pipeline with the scan under way. -/
structure Filling where
  base : State
  scan : Option Scan

/-- What the visit of a tenant meets: the store, whether it has the tenant's name, whether the lane
    sweep has more to do, and the job of a due row, if the row and its hook are there. -/
structure Visit where
  store : Store
  now : Ms
  floor : Ms
  named : Bool
  more : Bool
  load : Deliveries.Due → Option (Job × Bool)
  found : Job → Clock
  queued : Job → Clock

section

variable (w : Windows) (tenant : Nat → String)

/-- A tenant with claimed rows has its limits at hand; the name of another is read, and one without
    a name has the default. -/
def limitsOf (s : State) (ord : Nat) (named : Bool) : Limits :=
  if (s.tenantClaimed ord).isSome || named then w.own (tenant ord) else w.default

/-- The job of a due row; it is of the visited tenant. -/
def Visit.row (v : Visit) (ord : Nat) (d : Deliveries.Due) : Option (Job × Bool) :=
  (v.load d).map fun r => ({ r.1 with
    key := { r.1.key with tenant := tenant ord }
    ord := ord
    size := d.size }, r.2)

/-- The rows each tenant may take in a pass. -/
def share (left : Int) (n : Nat) : Int := max 1 (left / n)

/-- The page is full, or has rows and no bytes left. -/
def Scan.over (acc : Scan) : Bool := acc.left ≤ 0 || (0 < acc.claimed && acc.budget ≤ 0)

/-- Whether the node's window is full. -/
def atCapacity (s : State) : Bool :=
  w.node.maxInflight ≤ s.claimed || w.node.maxInflightBytes ≤ s.claimedBytes

/-- The visit of one tenant: it takes its share, within its window and the node's. -/
def passTenant (s : State) (acc : Scan) (ord : Nat) (v : Visit) : Option (State × Scan) :=
  let limits := limitsOf w tenant s ord v.named
  let (rows, bytes) := (s.tenantClaimed ord).getD (0, 0)
  if limits.maxInflight ≤ rows ∨ limits.maxInflightBytes ≤ bytes then some (s, acc)
  else
    let ask := min acc.share (min acc.left (limits.maxInflight - rows))
    let budget := min acc.budget (limits.maxInflightBytes - bytes)
    let dues := Deliveries.dueForTenant v.store ord v.now v.floor ask.toNat budget.toNat
    (step s (.claim (dues.filterMap (v.row tenant ord)) v.now v.found v.queued)).map fun t =>
        (t, { acc with
      left := acc.left - dues.length
      budget := acc.budget - total Deliveries.Due.size dues
      claimed := acc.claimed + dues.length
      wanting := if acc.share ≤ dues.length || v.more then acc.wanting ++ [ord] else acc.wanting })

namespace Filling

/-- The events of a pipeline that scans. -/
inductive Event where
  | scan (tenants : List Nat)
  | visit (v : Visit)
  /-- The store fails: the scan holds off. -/
  | holdoff
  | work (e : Dispatch.Event)

/-- A scan starts, visits a tenant, gives up, or the pipeline does other work. -/
def step (s : Filling) : Event → Option Filling
  | .scan tenants =>
    if s.scan.isSome || atCapacity w s.base || tenants.isEmpty then none
    else
      let left := min (w.batch : Int) (w.node.maxInflight - s.base.claimed)
      let budget := w.node.maxInflightBytes - s.base.claimedBytes
      some { s with scan := some ⟨left, budget, 0, share left tenants.length, tenants, []⟩ }
  | .visit v =>
    s.scan.bind fun acc =>
      match acc.todo with
      | [] =>
        if acc.wanting.isEmpty || acc.over then some { s with scan := none }
        else some { s with scan := some { acc with
          todo := acc.wanting
          wanting := []
          share := share acc.left acc.wanting.length } }
      | ord :: rest =>
        if acc.over then some { s with scan := some { acc with todo := [] } }
        else (passTenant w tenant s.base { acc with todo := rest } ord v).map fun r =>
          ⟨r.1, some r.2⟩
  | .holdoff => s.scan.map fun _ => { s with scan := none }
  | .work (.claim ..) => none
  | .work e => if s.scan.isSome then none else (Dispatch.step s.base e).map fun t =>
    { s with base := t }

/-- The pipeline at its start. -/
def start (cfg : Config) : Filling := ⟨.start cfg, none⟩

/-- The store names the tenant of `o` whenever it is visited. -/
def names (o : Nat) (s : Filling) : Event → Bool
  | .visit v => v.named || !(s.scan.any fun acc => acc.todo.head? = some o)
  | _ => true

end Filling

end

/-! ## Pages -/

section Pages

open Deliveries

theorem takeBudget_next (limit budget bytes : Nat) {n : Nat} (ds : List Due) (hn : n ≠ 0) :
    (takeBudget limit budget n bytes ds).length + n ≤ max n limit ∧
    (takeBudget limit budget n bytes ds = [] ∨
      bytes + total Due.size (takeBudget limit budget n bytes ds) ≤ budget) := by
  fun_induction takeBudget limit budget n bytes ds with
  | case1 | case3 => simp
  | case2 => contradiction
  | case4 n bytes d ds _ hroom ih =>
    obtain ⟨hlen, hbytes⟩ := ih (Nat.succ_ne_zero n)
    refine ⟨by simp only [length_cons]; omega, .inr ?_⟩
    obtain hnil | hbytes := hbytes
    · rw [hnil, total_cons, total_nil]
      omega
    · rw [total_cons]
      omega

/-- A page is within its limit, and within its budget unless it is a single row. -/
theorem takeBudget_page {limit budget : Nat} (ds : List Due) (hlimit : 0 < limit) :
    (takeBudget limit budget 0 0 ds).length ≤ limit ∧ ((takeBudget limit budget 0 0 ds).length ≤ 1 ∨
      total Due.size (takeBudget limit budget 0 0 ds) ≤ budget) := by
  cases ds with
  | nil => simp [takeBudget]
  | cons d ds =>
    obtain ⟨hlen, hbytes⟩ := takeBudget_next limit budget d.size ds Nat.one_ne_zero
    rw [takeBudget, if_pos rfl, length_cons, total_cons]
    refine ⟨by omega, hbytes.imp (fun hnil => ?_) id⟩
    rw [hnil]
    rfl

theorem dueForTenant_page (s : Store) (ord : Nat) (now floor : Ms) (limit budget : Nat)
    (hlimit : 0 < limit) : (dueForTenant s ord now floor limit budget).length ≤ limit ∧
      ((dueForTenant s ord now floor limit budget).length ≤ 1 ∨
        total Due.size (dueForTenant s ord now floor limit budget) ≤ budget) :=
  takeBudget_page _ hlimit

theorem Visit.rows_le (tenant : Nat → String) (v : Visit) (ord : Nat) (ds : List Due) :
    ((ds.filterMap (v.row tenant ord)).map Prod.fst).length ≤ ds.length ∧
      total Job.size ((ds.filterMap (v.row tenant ord)).map Prod.fst) ≤ total Due.size ds := by
  induction ds with
  | nil => exact ⟨le_rfl, le_rfl⟩
  | cons d =>
    cases hload : v.load d with
    | none =>
      rw [filterMap_cons_none (by simp [Visit.row, hload])]
      simp only [length_cons, total_cons]
      omega
    | some =>
      rw [filterMap_cons_some (by simp [Visit.row, hload]; rfl)]
      simp only [map_cons, length_cons, total_cons]
      omega

end Pages

/-! ## Bounds -/

/-- The jobs are within the window, but for one hook's bytes. -/
def Fits (l : Limits) (jobs : List Job) : Prop :=
  jobs.length ≤ l.maxInflight ∧
    (total Job.size jobs ≤ l.maxInflightBytes ∨ ∃ j ∈ jobs,
      total Job.size jobs < l.maxInflightBytes + j.size)

variable {jobs jobs' : List Job} {l : Limits}

theorem total_subperm (h : jobs.Subperm jobs') : total Job.size jobs ≤ total Job.size jobs' := by
  obtain ⟨l, hp, hs⟩ := h
  exact total_perm Job.size hp ▸ total_sublist _ hs

theorem Fits.subperm (h : Fits l jobs') (hsub : jobs.Subperm jobs') : Fits l jobs := by
  refine ⟨hsub.length_le.trans h.1, ?_⟩
  have hle := total_subperm hsub
  rcases h.2 with hfit | ⟨j, hj, hover⟩
  · exact .inl (hle.trans hfit)
  by_cases hmem : j ∈ jobs
  · exact .inr ⟨j, hmem, by omega⟩
  · -- The hook that went over the window has left it.
    have hrest : jobs.Subperm (jobs'.erase j) := erase_of_not_mem hmem ▸ hsub.erase j
    have hleft := total_subperm hrest
    rw [total_perm Job.size (perm_cons_erase hj), total_cons] at hover
    exact .inl (by omega)

/-- A page with room in rows and bytes keeps within the window. -/
theorem Fits.page {js : List Job} (budget : Int)
    (hrows : jobs.length + js.length ≤ l.maxInflight)
    (hbudget : total Job.size jobs + budget ≤ l.maxInflightBytes)
    (hpos : 0 < budget) (hpage : js.length ≤ 1 ∨ total Job.size js ≤ budget) :
    Fits l (js ++ jobs) := by
  refine ⟨by rw [length_append]; omega, ?_⟩
  rw [total_append]
  rcases hpage with hone | hfit
  · match js, hone with
    | [], _ => exact .inl (by simp only [total_nil]; omega)
    | [j], _ => exact .inr ⟨j, mem_cons_self, by simp only [total_cons, total_nil]; omega⟩
  · exact .inl (by omega)

section

variable {w : Windows} {tenant : Nat → String} {P : Nat → Prop}

/-- The jobs of a tenant. -/
def ofTenant (o : Nat) (jobs : List Job) : List Job := jobs.filter fun j => j.ord = o

/-- The window and each tenant's own are kept, for the tenants with `P`. -/
structure Bounded (w : Windows) (tenant : Nat → String) (P : Nat → Prop) (s : State) : Prop where
  kept : s.Kept
  node : Fits w.node s.jobs
  own : ∀ o, P o → Fits (w.own (tenant o)) (ofTenant o s.jobs)

variable {s t : State}

/-- A step that takes no row keeps the windows. -/
theorem Bounded.step {e : Event} (h : Bounded w tenant P s) (hnone : taken s e = [])
    (hstep : step s e = some t) : Bounded w tenant P t := by
  have hkept := Windowed.step h.kept hstep
  have hsub : t.jobs.Subperm s.jobs := by
    simpa only [hnone, append_nil, nil_append] using hkept.booked.sub
  exact ⟨hkept.kept, h.node.subperm hsub, fun o ho => (h.own o ho).subperm (hsub.filter _)⟩

/-- What is left to a scan is room in the window. -/
structure Room (w : Windows) (s : State) (acc : Scan) : Prop where
  rows : s.claimed + acc.left ≤ w.node.maxInflight
  bytes : s.claimedBytes + acc.budget ≤ w.node.maxInflightBytes
  first : acc.claimed = 0 → 0 < acc.budget
  share : 0 < acc.share

theorem State.Kept.entry (h : s.Kept) (o : Nat) : (s.tenantClaimed o).getD (0, 0) =
    (((ofTenant o s.jobs).length : Int), (total Job.size (ofTenant o s.jobs) : Int)) := by
  rw [h.booked.entries o, append_nil, ofTenant]
  cases s.jobs.filter fun j => j.ord = o with
  | nil => rfl
  | cons => simp [tally_cons]

variable {acc : Scan} {ord : Nat} {v : Visit}

theorem Bounded.claim {dues : List Deliveries.Due} {limits : Limits}
    (h : Bounded w tenant P s) (hroom : Room w s acc) (hpos : 0 < acc.budget)
    (hlimits : P ord → limits = w.own (tenant ord)) (hleft : dues.length ≤ acc.left)
    (hrows : (ofTenant ord s.jobs).length + dues.length ≤ limits.maxInflight)
    (hfree : total Job.size (ofTenant ord s.jobs) < limits.maxInflightBytes)
    (hpage : dues.length ≤ 1 ∨ total Deliveries.Due.size dues ≤ acc.budget ∧
      total Job.size (ofTenant ord s.jobs) + total Deliveries.Due.size dues ≤
      limits.maxInflightBytes)
    (hstep : Dispatch.step s (.claim (dues.filterMap (v.row tenant ord)) v.now v.found v.queued) =
      some t)
    (wanting : List Nat) : Bounded w tenant P t ∧ Room w t { acc with
      left := acc.left - dues.length
      budget := acc.budget - total Deliveries.Due.size dues
      claimed := acc.claimed + dues.length
      wanting := wanting } := by
  have hkept := Windowed.step h.kept hstep
  have hsub := hkept.booked.sub
  rw [append_nil] at hsub
  have hjobs : (taken s (.claim (dues.filterMap (v.row tenant ord)) v.now v.found v.queued)).Sublist
      _ := (Windowed.resolve h.kept v.now v.found (dues.filterMap (v.row tenant ord))).2.2
  generalize taken s (.claim (dues.filterMap (v.row tenant ord)) v.now v.found v.queued) =
    js at hkept hsub hjobs
  have hord : ∀ j ∈ js, j.ord = ord := by
    intro j hj
    obtain ⟨r, hr, rfl⟩ := mem_map.1 (hjobs.subset hj)
    obtain ⟨d, -, hd⟩ := mem_filterMap.1 hr
    obtain ⟨r', -, rfl⟩ := map_eq_some_iff.1 hd
    rfl
  obtain ⟨hcount, hsize⟩ := Visit.rows_le tenant v ord dues
  have hlen := hjobs.length_le.trans hcount
  have hbytes := (total_sublist Job.size hjobs).trans hsize
  have hclaimed := h.kept.booked.rows
  have htotal := h.kept.booked.total
  rw [append_nil] at hclaimed htotal
  have hroomy := hroom.rows
  have hspare := hroom.bytes
  refine ⟨⟨hkept.kept, ?_, fun o ho => ?_⟩, ⟨?_, ?_, ?_, hroom.share⟩⟩
  · exact (Fits.page acc.budget (by omega) (by omega) hpos (by omega)).subperm hsub
  · have hown := hsub.filter fun j => j.ord = o
    rw [filter_append] at hown
    by_cases heq : ord = o
    · subst heq
      rw [filter_eq_self.2 fun j hj => decide_eq_true (hord j hj)] at hown
      rw [hlimits ho] at hrows hfree hpage
      refine (Fits.page
        ((w.own (tenant ord)).maxInflightBytes - total Job.size (ofTenant ord s.jobs)) ?_ ?_ ?_
        ?_).subperm hown
      all_goals
        simp only [ofTenant] at hrows hfree hpage ⊢
        omega
    · have hnone : js.filter (fun j => j.ord = o) = [] :=
        filter_eq_nil_iff.2 fun j hj => by simpa [hord j hj] using heq
      rw [hnone, nil_append] at hown
      exact (h.own o ho).subperm hown
  all_goals
    have hrows' := hkept.booked.rows
    have htotal' := hkept.booked.total
    rw [append_nil] at hrows' htotal'
    have hfew := hsub.length_le
    have hless := total_subperm hsub
    rw [length_append] at hfew
    rw [total_append] at hless
  · dsimp only
    omega
  · dsimp only
    omega
  · intro hnone
    have hnil : dues = [] := eq_nil_of_length_eq_zero (by dsimp only at hnone; omega)
    rw [hnil]
    simpa using hpos

theorem Bounded.passTenant {acc' : Scan} (h : Bounded w tenant P s)
    (hroom : Room w s acc) (hover : acc.over = false) (hnamed : P ord → v.named = true)
    (hpass : passTenant w tenant s acc ord v = some (t, acc')) :
    Bounded w tenant P t ∧ Room w t acc' := by
  simp only [Dispatch.passTenant, h.kept.entry] at hpass
  split at hpass
  · cases hpass
    exact ⟨h, hroom⟩
  next hfree =>
    obtain ⟨t, hstep, ⟨⟩⟩ := map_eq_some_iff.1 hpass
    have hleft : 0 < acc.left ∧ 0 < acc.budget := by
      have := hroom.first
      simp only [Scan.over, Bool.or_eq_false_iff, Bool.and_eq_false_iff,
        decide_eq_false_iff_not] at hover
      omega
    have hshare := hroom.share
    have hpage := dueForTenant_page v.store ord v.now v.floor
      (min acc.share (min acc.left
        ((limitsOf w tenant s ord v.named).maxInflight - (ofTenant ord s.jobs).length))).toNat
      (min acc.budget ((limitsOf w tenant s ord v.named).maxInflightBytes -
        total Job.size (ofTenant ord s.jobs))).toNat (by omega)
    have hlimits : P ord → limitsOf w tenant s ord v.named = w.own (tenant ord) := fun hP => by
      simp [limitsOf, hnamed hP]
    refine h.claim hroom hleft.2 hlimits ?_ ?_ ?_ ?_ hstep _
    all_goals omega

/-- The windows, and the room of a scan in progress. -/
structure Filled (w : Windows) (tenant : Nat → String) (P : Nat → Prop) (s : Filling) : Prop where
  bounded : Bounded w tenant P s.base
  room : ∀ acc, s.scan = some acc → Room w s.base acc

theorem Filled.step {s t : Filling} {e : Filling.Event} (h : Filled w tenant P s)
    (hnames : ∀ o, P o → Filling.names o s e = true) (hstep : Filling.step w tenant s e = some t) :
    Filled w tenant P t := by
  have hshare (left : Int) (n : Nat) : 0 < share left n :=
    Int.lt_of_lt_of_le Int.one_pos (Int.le_max_left ..)
  cases e with
  | scan =>
    simp only [Filling.step] at hstep
    split at hstep <;> cases hstep
    next hfree =>
      simp only [Bool.or_eq_true, not_or, atCapacity, decide_eq_true_eq] at hfree
      refine ⟨h.bounded, ?_⟩
      rintro _ ⟨⟩
      exact ⟨by dsimp only; omega, by dsimp only; omega, fun _ => by dsimp only; omega, hshare ..⟩
  | visit =>
    obtain ⟨acc, hacc, hstep⟩ := bind_eq_some_iff.1 hstep
    have hroom := h.room acc hacc
    split at hstep
    next =>
      split at hstep <;> cases hstep
      · exact ⟨h.bounded, nofun⟩
      · refine ⟨h.bounded, ?_⟩
        rintro _ ⟨⟩
        exact { hroom with share := hshare .. }
    next ord rest htodo =>
      split at hstep
      next =>
        cases hstep
        refine ⟨h.bounded, ?_⟩
        rintro _ ⟨⟩
        exact { hroom with }
      next hover =>
        obtain ⟨⟨base, acc'⟩, hpass, rfl⟩ := map_eq_some_iff.1 hstep
        have hpopped : Room w s.base { acc with todo := rest } := { hroom with }
        have hvisit := h.bounded.passTenant hpopped (by simpa [Scan.over] using hover)
          (fun hP => by simpa [Filling.names, hacc, htodo] using hnames ord hP) hpass
        refine ⟨hvisit.1, ?_⟩
        rintro _ ⟨⟩
        exact hvisit.2
  | holdoff =>
    obtain ⟨_, -, rfl⟩ := map_eq_some_iff.1 hstep
    exact ⟨h.bounded, nofun⟩
  | work e =>
    cases e with
    | claim => cases hstep
    | _ =>
      obtain ⟨hidle, hstep⟩ := Run.barred hstep
      obtain ⟨base, hbase, rfl⟩ := map_eq_some_iff.1 hstep
      exact ⟨h.bounded.step rfl hbase, fun acc hacc => absurd (Option.isSome_of_mem hacc) hidle⟩

theorem Filled.start (cfg : Config) : Filled w tenant P (Filling.start cfg) :=
  ⟨⟨.start cfg, ⟨Nat.zero_le _, .inl (Nat.zero_le _)⟩,
    fun _ _ => ⟨Nat.zero_le _, .inl (Nat.zero_le _)⟩⟩, nofun⟩

theorem windows_kept {cfg : Config} {es : List Filling.Event} {s : Filling}
    (hrun : Run.exec (Filling.step w tenant) (Filling.start cfg) es = some s) :
    s.base.claimed ≤ w.node.maxInflight ∧ (s.base.claimedBytes ≤ w.node.maxInflightBytes ∨
      ∃ j ∈ s.base.jobs, s.base.claimedBytes < w.node.maxInflightBytes + j.size) ∧
    ∀ o, Run.Along (Filling.step w tenant) (fun s e => Filling.names o s e = true)
    (Filling.start cfg) es →
      ∀ rows bytes, s.base.tenantClaimed o = some (rows, bytes) →
      rows ≤ (w.own (tenant o)).maxInflight ∧
        (bytes ≤ (w.own (tenant o)).maxInflightBytes ∨
          ∃ j ∈ s.base.jobs, j.ord = o ∧ bytes < (w.own (tenant o)).maxInflightBytes + j.size) := by
  have hall : Filled w tenant (fun _ => False) s :=
    exec_invariant (fun _ _ _ h => h.step fun _ => False.elim) (.start cfg) hrun
  have hrows := hall.bounded.kept.booked.rows
  have htotal := hall.bounded.kept.booked.total
  rw [append_nil] at hrows htotal
  obtain ⟨hnode, hbytes⟩ := hall.bounded.node
  refine ⟨by omega, ?_, fun o hnames rows bytes hentry => ?_⟩
  · rw [htotal]
    exact_mod_cast hbytes
  have hone : Filled w tenant (· = o) s :=
    invariant_along (fun _ _ _ h hmet => h.step fun _ ho => ho ▸ hmet) (.start cfg) hnames hrun
  have hget := hone.bounded.kept.entry o
  rw [hentry] at hget
  cases hget
  obtain ⟨hown, hbytes⟩ := hone.bounded.own o rfl
  refine ⟨by exact_mod_cast hown, hbytes.imp (fun hfit => by exact_mod_cast hfit) ?_⟩
  rintro ⟨j, hj, hlt⟩
  obtain ⟨hj, hord⟩ := mem_filter.1 hj
  exact ⟨j, hj, of_decide_eq_true hord, by exact_mod_cast hlt⟩

end

/-- The tenant of ordinal 1 may hold one row, any other two. -/
def narrow : Windows := ⟨10, ⟨3, 10⟩, ⟨2, 10⟩, fun t => if t = "vip" then some ⟨1, 4⟩ else none⟩

/-- Two due rows of the tenant, one of them larger than its window. -/
def twoDue (named : Bool) : Visit :=
  { store := (∅ : Store).write [.put (.due 1 0 1 0) (.due 7 .firstAttempt),
    .put (.due 1 0 2 0) (.due 2 .firstAttempt)]
    now := 5, floor := 0, named := named, more := false
    load := fun d => some (⟨⟨"", "src", d.sink, "Sink"⟩, 0, d.seq, 0, ⟨0, 0⟩, 100, false, false⟩,
      true)
    found := fun _ => ⟨0, 5⟩, queued := fun _ => ⟨0, 5⟩ }

theorem narrow_kept : ∃ s, Run.exec (Filling.step narrow fun _ => "vip")
    (Filling.start ⟨8, none, fun _ => 8, 5, 10, 100⟩)
      [.scan [1], .visit (twoDue true)] = some s ∧ s.base.tenantClaimed 1 = some (1, 7) ∧
    s.base.claimedBytes ≤ 10 ∧ (1 : Int) ≤ (narrow.own "vip").maxInflight := by
  obtain ⟨s, hrun, hentry, hbytes⟩ : ∃ s, exec (Filling.step narrow fun _ => "vip")
      (Filling.start ⟨8, none, fun _ => 8, 5, 10, 100⟩) [.scan [1], .visit (twoDue true)] = some s ∧
      s.base.tenantClaimed 1 = some (1, 7) ∧ s.base.claimedBytes ≤ 10 :=
    of_exec (by decide +kernel)
  exact ⟨s, hrun, hentry, hbytes, ((windows_kept hrun).2.2 1 (by decide +kernel) 1 7 hentry).1⟩

/-- Without its name, the tenant has the default window: it holds two rows where its own allows
    one. -/
theorem narrow_unnamed : ∃ s, Run.exec (Filling.step narrow fun _ => "vip")
      (Filling.start ⟨8, none, fun _ => 8, 5, 10, 100⟩)
      [.scan [1], .visit (twoDue false)] = some s ∧
    s.base.tenantClaimed 1 = some (2, 9) ∧ (narrow.own "vip").maxInflight = 1 :=
  of_exec (by decide +kernel)

end Ankusa.Dispatch
