import Ankusa.Lib.Run
import Ankusa.Store.Keys

set_option autoImplicit false

/-! # Restoring a store directory

A node that finds no `CURRENT` in its store directory restores the latest backup before it opens the
store (`store/backup.ex`, `store.ex`): it clears the directory, writes a marker, downloads the files
with `CURRENT` last, and removes the marker once the archive is reconciled with the restored store.
A boot decides from what it finds: data files without `CURRENT` are cleared when the marker says
they are a restore's leftovers and refused when it does not; `CURRENT` beside the marker is a whole
database that still has to be reconciled.

The clear removes the files in whatever order the directory lists them, and the marker and `CURRENT`
are among them. `restore_sound` is what holds at every crash point as long as each clear takes
`CURRENT` before any other file and the marker after the last data file. -/

namespace Ankusa.Store.Restore

open List AList Run

/-! ## The directory -/

/-- The names of a store directory, as far as a restore tells them apart. -/
inductive Name where
  /-- `RESTORE-IN-PROGRESS` -/
  | marker
  | current
  /-- `MANIFEST-…` -/
  | manifest (n : Nat)
  /-- A table, blob or log file: `….sst`, `….blob`, `….log`. -/
  | table (name : String)
  /-- `LOG`, `LOCK`, `IDENTITY`, `OPTIONS`: what holds no data. -/
  | plain (name : String)
  /-- What a write cut short leaves: the target's name with `.tmp.` and a number. -/
  | tmp (target : Name) (n : Nat)
  deriving DecidableEq, Repr

/-- A file that holds data of the database. -/
def Name.dataFile : Name → Bool
  | .manifest _ | .table _ | .tmp (.manifest _) _ => true
  | .marker | .current | .plain _ | .tmp _ _ => false

/-- The regular files of the directory. -/
abbrev Dir := KV.Map Name Bin

/-- The file is there. -/
def Dir.has (dir : Dir) (name : Name) : Bool := (dir.get name).isSome

/-- No file of the directory holds data. -/
def Dir.NoData (dir : Dir) : Prop := dir.keys.filter Name.dataFile = []

instance (dir : Dir) : Decidable dir.NoData := inferInstanceAs (Decidable (_ = _))

/-- `check_restorable`: no data, or a restore's leftovers. -/
def checkRestorable (dir : Dir) : Bool := decide dir.NoData || dir.has .marker

theorem Dir.get_insert (dir : Dir) (name other : Name) (bin : Bin) :
    KV.Map.get (dir.insert name bin) other = if other = name then some bin else dir.get other := by
  unfold KV.Map.get
  by_cases h : other = name
  · rw [h, if_pos rfl, lookup_insert]
  · rw [if_neg h, lookup_insert_ne h]

open Dir

theorem Dir.has_insert (dir : Dir) (name other : Name) (bin : Bin) :
    Dir.has (dir.insert name bin) other = (decide (other = name) || dir.has other) := by
  unfold Dir.has
  rw [get_insert]
  by_cases h : other = name <;> simp [h]

theorem Dir.has_erase (dir : Dir) (name other : Name) :
    Dir.has (dir.erase name) other = (!decide (other = name) && dir.has other) := by
  unfold Dir.has KV.Map.get
  by_cases h : other = name
  · rw [h, lookup_erase]
    simp
  · rw [lookup_erase_ne h]
    simp [h]

theorem Dir.noData_iff {dir : Dir} :
    dir.NoData ↔ ∀ name, dir.has name = true → name.dataFile = false := by
  have hkeys : ∀ name, dir.has name = true ↔ name ∈ dir.keys :=
    fun name => lookup_isSome.trans mem_keys
  unfold Dir.NoData
  simp only [filter_eq_nil_iff, hkeys, Bool.not_eq_true]

theorem Dir.not_has_of_keys_nil {dir : Dir} (h : dir.keys = []) (name : Name) :
    dir.has name = false := by
  have hmem : name ∉ dir := by
    rw [AList.mem_keys, h]
    exact not_mem_nil
  unfold Dir.has KV.Map.get
  rw [AList.lookup_eq_none.2 hmem]
  rfl

/-- A file of a backup's manifest. -/
structure Entry where
  name : Name
  size : Nat
  sha256 : Bin
  deriving DecidableEq, Repr

/-- A manifest that `load_latest` accepts: the listing of a checkpoint's directory. -/
structure Manifest where
  id : Bin
  /-- The store format is newer than this release can open. -/
  newer : Bool
  files : List Entry
  current : Name.current ∈ files.map Entry.name
  unmarked : Name.marker ∉ files.map Entry.name
  distinct : (files.map Entry.name).Nodup
  deriving DecidableEq, Repr

/-- The files in the order they are restored: `CURRENT` last. -/
def Manifest.order (m : Manifest) : List Entry :=
  m.files.filter (fun e => e.name ≠ .current) ++ m.files.filter (fun e => e.name = .current)

/-! ## A boot, step by step -/

/-- Which target is being tried: the only one, the first of two, or the second, with whether the
    first failed or held no backup. -/
inductive Try where
  | only
  | primary
  | secondary (failed : Bool)
  deriving DecidableEq, Repr

/-- Where the boot is. -/
inductive Phase where
  | down
  | loading (t : Try)
  /-- Clearing the directory for a backup, or for a fresh store. -/
  | clearing (t : Try) (backup : Option Manifest)
  | marking (t : Try) (backup : Option Manifest)
  | files (t : Try) (m : Manifest) (todo : List Entry)
  /-- RocksDB creates a fresh database. -/
  | creating
  | reconciling
  | unmarking
  | serving
  deriving DecidableEq, Repr

/-- What the files of the directory are meant to be. -/
inductive Made where
  | nothing
  | fresh
  | restored (m : Manifest)

/-- The directory and the boot under way. -/
structure State where
  dir : Dir
  phase : Phase
  made : Made
  /-- The archive is reconciled with the database in the directory. -/
  reconciled : Bool

/-- The outcome of `load_latest`. -/
inductive Load where
  | none
  | found (m : Manifest)
  | error

/-- A file is written under a temporary name, synced and renamed: it may fail before the rename, or
    after it, when the directory cannot be synced. -/
inductive Write where
  | ok | failed | renamed

/-- The steps of a boot, and a crash. -/
inductive Event where
  | boot (two : Bool)
  | load (r : Load)
  /-- The clear removes a file, or fails to. -/
  | rm (name : Name) (ok : Bool)
  | cleared
  | mark (w : Write)
  /-- The next file is downloaded (or is not), checked and written. -/
  | file (bin : Option Bin) (w : Write)
  /-- RocksDB writes a file of a fresh database, `CURRENT` last. -/
  | create (name : Name) (bin : Bin)
  | reconcile (ok : Bool)
  | unmark (ok : Bool)
  | crash
  /-- The process dies with the next file under its temporary name. -/
  | torn (n : Nat) (bin : Bin)

/-- What a boot reports. -/
inductive Result where
  | restored | fresh | error

/-- What follows when a target is done with. -/
def afterTarget : Try → Result → Phase
  | _, .restored => .reconciling
  | .only, .fresh => .creating
  | .only, .error => .down
  | .primary, .fresh => .loading (.secondary false)
  | .primary, .error => .loading (.secondary true)
  | .secondary false, .fresh => .creating
  | .secondary true, .fresh => .down
  | .secondary _, .error => .down

section Step

variable (sha256 : Bin → Bin)

/-- The file has the size and the hash the manifest lists. -/
def Entry.matches (e : Entry) (bin : Bin) : Bool :=
  decide (bin.length = e.size) && decide (sha256 bin = e.sha256)

/-- The directory and the success of a write. -/
def write (dir : Dir) (name : Name) (bin : Bin) : Write → Dir × Bool
  | .ok => (dir.insert name bin, true)
  | .failed => (dir, false)
  | .renamed => (dir.insert name bin, false)

/-- What the marker says: the backup's id, or `fresh`. -/
def markerText : Option Manifest → Bin
  | some m => m.id
  | none => "fresh".toUTF8.toList

/-- What the database was made from. -/
def madeOf : Option Manifest → Made
  | some m => .restored m
  | none => .fresh

/-- One step of the boot. -/
def step (s : State) : Event → Option State
  | .boot two =>
    if s.phase = .down then
      if !s.dir.has .current then
        if checkRestorable s.dir then
          some { s with phase := .loading (if two then .primary else .only) }
        else some s
      else if s.dir.has .marker then some { s with phase := .reconciling }
      else some { s with phase := .serving }
    else none
  | .load r =>
    match s.phase with
    | .loading t =>
      match r with
      | .none => some { s with phase := .clearing t none }
      | .found m =>
        if m.newer then some { s with phase := afterTarget t .error }
        else some { s with phase := .clearing t (some m) }
      | .error => some { s with phase := afterTarget t .error }
    | _ => none
  | .rm name ok =>
    match s.phase with
    | .clearing t _ =>
      if s.dir.has name then
        if ok then some { s with dir := s.dir.erase name }
        else some { s with phase := afterTarget t .error }
      else none
    | _ => none
  | .cleared =>
    match s.phase with
    | .clearing t backup =>
      if s.dir.keys = [] then some { s with phase := .marking t backup } else none
    | _ => none
  | .mark w =>
    match s.phase with
    | .marking t backup =>
      let out := write s.dir .marker (markerText backup) w
      let phase :=
        if out.2 then
          match backup with
          | some m => .files t m m.order
          | none => afterTarget t .fresh
        else afterTarget t .error
      some { dir := out.1, phase := phase, made := madeOf backup, reconciled := false }
    | _ => none
  | .file bin w =>
    match s.phase with
    | .files t _ [] => some { s with phase := afterTarget t .restored }
    | .files t m (e :: todo) =>
      match bin with
      | none => some { s with phase := afterTarget t .error }
      | some bin =>
        if e.matches sha256 bin then
          let out := write s.dir e.name bin w
          some { s with
            dir := out.1
            phase := if out.2 then .files t m todo else afterTarget t .error }
        else some { s with phase := afterTarget t .error }
    | _ => none
  | .create name bin =>
    match s.phase with
    | .creating =>
      if name = .marker then none
      else some { s with
        dir := s.dir.insert name bin
        phase := if name = .current then .reconciling else .creating }
    | _ => none
  | .reconcile ok =>
    match s.phase with
    | .reconciling =>
      if ok then some { s with phase := .unmarking, reconciled := true }
      else some { s with phase := .down }
    | _ => none
  | .unmark ok =>
    match s.phase with
    | .unmarking =>
      some { s with dir := if ok then s.dir.erase .marker else s.dir, phase := .serving }
    | _ => none
  | .crash => some { s with phase := .down }
  | .torn n bin =>
    match s.phase with
    | .marking _ _ => some { s with dir := s.dir.insert (.tmp .marker n) bin, phase := .down }
    | .files _ _ (e :: _) => some { s with dir := s.dir.insert (.tmp e.name n) bin, phase := .down }
    | _ => none

/-- Every file of the database is there, as the manifest lists it; a fresh database is RocksDB's. -/
def Whole (dir : Dir) : Made → Prop
  | .restored m => ∀ e ∈ m.files, (dir.get e.name).any (e.matches sha256) = true
  | .fresh | .nothing => True

instance (dir : Dir) (made : Made) : Decidable (Whole sha256 dir made) := by
  cases made <;> unfold Whole <;> infer_instance

end Step

/-- A directory with nothing of a database in it, as on a new disk. -/
structure Blank (s : State) : Prop where
  down : s.phase = .down
  current : s.dir.has .current = false
  data : s.dir.NoData
  reconciled : s.reconciled = false

/-- The clear takes `CURRENT` before any other file, and the marker after the last data file. -/
def InOrder (s : State) : Event → Prop
  | .rm name _ =>
    (name ≠ .current → s.dir.has .current = false) ∧ (name = .marker → s.dir.NoData)
  | _ => True

instance (s : State) (e : Event) : Decidable (InOrder s e) := by
  unfold InOrder
  split <;> infer_instance

/-! ## Every crash point -/

variable {m : Manifest} {e : Entry}

theorem Manifest.mem_order : e ∈ m.order ↔ e ∈ m.files := by
  unfold Manifest.order
  by_cases h : e.name = .current <;> simp [h]

theorem Manifest.order_perm (m : Manifest) : m.order.Perm m.files := by
  have h := filter_append_perm (fun e : Entry => decide (e.name ≠ .current)) m.files
  simpa [Manifest.order] using h

/-- What follows `CURRENT` in the order would be `CURRENT` too. -/
theorem Manifest.order_pairwise (m : Manifest) :
    m.order.Pairwise fun a b => a.name = .current → b.name = .current := by
  refine pairwise_append.2 ⟨?_, ?_, ?_⟩
  · refine pairwise_of_forall_mem_list fun a ha b _ hcur => ?_
    exact absurd hcur (of_decide_eq_true (mem_filter.1 ha).2)
  · refine pairwise_of_forall_mem_list fun a _ b hb _ => ?_
    exact of_decide_eq_true (mem_filter.1 hb).2
  · intro a _ b hb _
    exact of_decide_eq_true (mem_filter.1 hb).2

variable {pre todo : List Entry} {name : Name}

theorem Manifest.last_of_current (h : m.order = pre ++ e :: todo) (he : e.name = .current) :
    todo = [] := by
  have hafter := (pairwise_append.1 (h ▸ m.order_pairwise)).2.1
  have hnodup : (m.order.map Entry.name).Nodup :=
    (m.order_perm.map Entry.name).nodup_iff.2 m.distinct
  rw [h, map_append, map_cons] at hnodup
  have hfresh := (nodup_cons.1 (nodup_append.1 hnodup).2.1).1
  refine eq_nil_iff_forall_not_mem.2 fun x hx => hfresh ?_
  have hname : x.name = e.name := ((pairwise_cons.1 hafter).1 x hx he).trans he.symm
  exact hname ▸ mem_map_of_mem hx

theorem Manifest.name_ne_of_order {x : Entry} (h : m.order = pre ++ e :: todo) (hx : x ∈ pre) :
    x.name ≠ e.name := by
  have hnodup : (m.order.map Entry.name).Nodup :=
    (m.order_perm.map Entry.name).nodup_iff.2 m.distinct
  rw [h, map_append, map_cons] at hnodup
  exact (nodup_append.1 hnodup).2.2 _ (mem_map_of_mem hx) _ mem_cons_self

section Invariant

variable (sha256 : Bin → Bin)

/-- The files are there as their entries list them. -/
def Present (dir : Dir) (files : List Entry) : Prop :=
  ∀ e ∈ files, (dir.get e.name).any (e.matches sha256) = true

/-- What each phase may rely on. -/
def PhaseOk (s : State) : Prop :=
  match s.phase with
  | .down | .serving => True
  | .loading _ | .clearing _ _ => s.reconciled = false
  | .marking _ _ => s.reconciled = false ∧ s.dir.keys = []
  | .files _ m todo =>
    s.reconciled = false ∧ s.made = .restored m ∧ s.dir.has .marker = true ∧
      ∃ pre, m.order = pre ++ todo ∧ Present sha256 s.dir pre ∧
        (todo ≠ [] → s.dir.has .current = false)
  | .creating => s.reconciled = false ∧ s.made = .fresh ∧ s.dir.has .marker = true
  | .reconciling => s.dir.has .current = true
  | .unmarking => s.reconciled = true

/-- A database that can be opened is whole, and one that is not reconciled is marked. -/
structure Sound (s : State) : Prop where
  whole : s.dir.has .current = true → Whole sha256 s.dir s.made
  marked : s.reconciled = false → s.dir.has .current = true ∨ ¬s.dir.NoData →
    s.dir.has .marker = true
  current : s.reconciled = true → s.dir.has .current = true
  phase : PhaseOk sha256 s

variable {sha256 : Bin → Bin} {s : State}

theorem Sound.atPhase (hs : Sound sha256 s) {p : Phase}
    (hp : PhaseOk sha256 { s with phase := p }) : Sound sha256 { s with phase := p } :=
  { hs with phase := hp }

variable {dir : Dir} {made : Made}

theorem phaseOk_afterTarget {reconciled : Bool} (t : Try) (r : Result)
    (hrec : reconciled = false) (hrestored : r = .restored → dir.has .current = true)
    (hfresh : r = .fresh → made = .fresh ∧ dir.has .marker = true) : PhaseOk sha256
      { dir := dir, phase := afterTarget t r, made := made, reconciled := reconciled } := by
  cases r with
  | restored => cases t <;> exact hrestored rfl
  | error => cases t <;> trivial
  | fresh =>
    obtain ⟨hmade, hmark⟩ := hfresh rfl
    cases t with
    | only => exact ⟨hrec, hmade, hmark⟩
    | primary => exact hrec
    | secondary failed =>
      cases failed with
      | false => exact ⟨hrec, hmade, hmark⟩
      | true => trivial

theorem Sound.error (hs : Sound sha256 s) (t : Try) (hrec : s.reconciled = false) :
    Sound sha256 { s with phase := afterTarget t .error } :=
  hs.atPhase (phaseOk_afterTarget t .error hrec (fun h => nomatch h) (fun h => nomatch h))

variable {u : State}

theorem sound_boot (hs : Sound sha256 s) {two : Bool} (h : step sha256 s (.boot two) = some u) :
    Sound sha256 u := by
  obtain ⟨-, h⟩ := passed h
  cases hcur : s.dir.has .current with
  | false =>
    have hrec : s.reconciled = false :=
      Bool.eq_false_iff.2 fun ht => absurd (hs.current ht) (by simp [hcur])
    simp only [hcur, Bool.not_false, if_true] at h
    split at h
    · cases h
      exact hs.atPhase (by cases two <;> exact hrec)
    · cases h
      exact hs
  | true =>
    simp only [hcur, Bool.not_true, Bool.false_eq_true, if_false] at h
    split at h
    · cases h
      exact hs.atPhase hcur
    · cases h
      exact hs.atPhase trivial

theorem sound_load (hs : Sound sha256 s) {r : Load} (h : step sha256 s (.load r) = some u) :
    Sound sha256 u := by
  simp only [step] at h
  split at h
  next t hphase =>
    have hrec : s.reconciled = false := by simpa [PhaseOk, hphase] using hs.phase
    cases r with
    | none =>
      cases h
      exact hs.atPhase hrec
    | error =>
      cases h
      exact hs.error t hrec
    | found =>
      simp only at h
      split at h
      · cases h
        exact hs.error t hrec
      · cases h
        exact hs.atPhase hrec
  · cases h

variable {ok : Bool}

/-- A file leaves in order: the marker outlives the data, and a database loses `CURRENT` first. -/
theorem sound_rm (hs : Sound sha256 s)
    (horder : InOrder s (.rm name ok)) (h : step sha256 s (.rm name ok) = some u) :
    Sound sha256 u := by
  simp only [step] at h
  split at h
  next t backup hphase =>
    have hrec : s.reconciled = false := by simpa [PhaseOk, hphase] using hs.phase
    obtain ⟨-, h⟩ := passed h
    cases ok with
    | false =>
      cases h
      exact hs.error t hrec
    | true =>
      cases h
      obtain ⟨hfirst, hlast⟩ := horder
      have hgone : Dir.has (s.dir.erase name) .current = false := by
        rw [has_erase]
        by_cases hname : name = .current
        · simp [hname]
        · simp [hfirst hname]
      refine ⟨fun hcur => ?_, fun _ hdata => ?_, fun ht => ?_, ?_⟩
      · exact absurd hcur (by simp [hgone])
      · have hsome : ¬s.dir.NoData := by
          obtain hcur | hdata := hdata
          · exact absurd hcur (by simp [hgone])
          · intro hnone
            refine hdata (noData_iff.2 fun x hx => ?_)
            rw [has_erase, Bool.and_eq_true] at hx
            exact noData_iff.1 hnone x hx.2
        have hname : name ≠ .marker := fun hm => hsome (hlast hm)
        rw [has_erase, hs.marked hrec (.inr hsome)]
        simp [hname.symm]
      · exact absurd ht (by simp [hrec])
      · show PhaseOk sha256 _
        simpa [PhaseOk, hphase] using hrec
  · cases h

theorem sound_cleared (hs : Sound sha256 s) (h : step sha256 s .cleared = some u) :
    Sound sha256 u := by
  simp only [step] at h
  split at h
  next hphase =>
    have hrec : s.reconciled = false := by simpa [PhaseOk, hphase] using hs.phase
    obtain ⟨hempty, rfl⟩ := guarded h
    exact hs.atPhase ⟨hrec, hempty⟩
  · cases h

/-- The directory after the marker's write: empty, or the marker alone. -/
theorem sound_mark (hs : Sound sha256 s) {w : Write} (h : step sha256 s (.mark w) = some u) :
    Sound sha256 u := by
  simp only [step] at h
  split at h
  next t backup hphase =>
    obtain ⟨-, hempty⟩ : s.reconciled = false ∧ s.dir.keys = [] := by
      simpa [PhaseOk, hphase] using hs.phase
    have hnone := not_has_of_keys_nil hempty
    have hmarker : ∀ text, Dir.has (s.dir.insert .marker text) .marker = true := fun text => by
      simp [has_insert]
    have hcur : ∀ text, Dir.has (s.dir.insert .marker text) .current = false :=
      fun text => by simp [has_insert, hnone]
    cases h
    cases w with
    | failed =>
      refine ⟨fun hc => absurd hc (by simp [write, hnone]), fun _ hdata => ?_,
        fun ht => absurd ht Bool.false_ne_true,
        phaseOk_afterTarget t .error rfl (fun hr => nomatch hr) (fun hf => nomatch hf)⟩
      have hno : s.dir.NoData := noData_iff.2 fun x hx => absurd hx (by simp [hnone])
      exact absurd hdata (by simp [write, hnone, hno])
    | renamed =>
      exact ⟨fun hc => absurd hc (by simp [write, hcur]), fun _ _ => hmarker _,
        fun ht => absurd ht Bool.false_ne_true,
        phaseOk_afterTarget t .error rfl (fun hr => nomatch hr) (fun hf => nomatch hf)⟩
    | ok =>
      refine ⟨fun hc => absurd hc (by simp [write, hcur]), fun _ _ => hmarker _,
        fun ht => absurd ht Bool.false_ne_true, ?_⟩
      cases backup with
      | none =>
        exact phaseOk_afterTarget t .fresh rfl (fun hr => nomatch hr) fun _ => ⟨rfl, hmarker _⟩
      | some =>
        exact ⟨rfl, rfl, hmarker _, [], rfl, forall_mem_nil _, fun _ => hcur _⟩
  · cases h

variable {bin : Bin}

theorem Present.insert
    (hpre : Present sha256 dir pre) (hsplit : m.order = pre ++ e :: todo)
    (hbin : e.matches sha256 bin = true) : Present sha256 (dir.insert e.name bin) (pre ++ [e]) := by
  intro x hx
  rw [get_insert]
  obtain hx | hx := mem_append.1 hx
  · rw [if_neg (m.name_ne_of_order hsplit hx)]
    exact hpre x hx
  · obtain rfl := mem_singleton.1 hx
    simpa using hbin

section

variable (hs : Sound sha256 s)
include hs

/-- A checked file reaches its name: with `CURRENT`, the last one, the database is whole. -/
theorem Sound.fileWritten {t : Try} (hphase : s.phase = .files t m (e :: todo))
    (hbin : e.matches sha256 bin = true) :
    Sound sha256 { s with dir := s.dir.insert e.name bin, phase := .files t m todo } := by
  have hok := hs.phase
  simp only [PhaseOk, hphase] at hok
  obtain ⟨hrec, hmade, hmark, pre, hsplit, hpre, hcur⟩ := hok
  have hnocur := hcur (cons_ne_nil _ _)
  have hpresent := hpre.insert hsplit hbin
  have hmark' : Dir.has (s.dir.insert e.name bin) .marker = true := by
    rw [has_insert, hmark, Bool.or_true]
  have hname : Dir.has (s.dir.insert e.name bin) .current = true → e.name = .current := by
    intro hc
    rw [has_insert, hnocur, Bool.or_false] at hc
    exact (of_decide_eq_true hc).symm
  refine ⟨fun hc => ?_, fun _ _ => hmark', fun ht => absurd ht (by simp [hrec]), ?_⟩
  · obtain rfl := m.last_of_current hsplit (hname hc)
    rw [hmade]
    intro x hx
    exact hpresent x (hsplit ▸ Manifest.mem_order.2 hx)
  · refine ⟨hrec, hmade, hmark', pre ++ [e], by rw [hsplit, append_assoc]; rfl, hpresent,
      fun hne => Bool.eq_false_iff.2 fun hc => hne (m.last_of_current hsplit (hname hc))⟩

theorem sound_file {bin : Option Bin} {w : Write} (h : step sha256 s (.file bin w) = some u) :
    Sound sha256 u := by
  simp only [step] at h
  split at h
  next t m hphase =>
    have hok := hs.phase
    simp only [PhaseOk, hphase] at hok
    obtain ⟨hrec, -, -, pre, hsplit, hpre, -⟩ := hok
    cases h
    refine hs.atPhase (phaseOk_afterTarget t .restored hrec (fun _ => ?_) fun hf => nomatch hf)
    obtain ⟨e, he, hname⟩ := mem_map.1 m.current
    rw [append_nil] at hsplit
    have hget := hpre e (hsplit ▸ Manifest.mem_order.2 he)
    rw [hname] at hget
    exact Option.isSome_of_any hget
  next t m e todo hphase =>
    have hrec : s.reconciled = false := by
      have hok := hs.phase
      simp only [PhaseOk, hphase] at hok
      exact hok.1
    split at h
    · cases h
      exact hs.error t hrec
    split at h
    next hbin =>
      cases h
      have hwritten := hs.fileWritten hphase hbin
      cases w with
      | ok => exact hwritten
      | failed => exact hs.error t hrec
      | renamed => exact hwritten.error t hrec
    · cases h
      exact hs.error t hrec
  · cases h

theorem sound_create (h : step sha256 s (.create name bin) = some u) : Sound sha256 u := by
  simp only [step] at h
  split at h
  next hphase =>
    obtain ⟨hrec, hmade, hmark⟩ : s.reconciled = false ∧ s.made = .fresh ∧
        s.dir.has .marker = true := by
      simpa only [PhaseOk, hphase] using hs.phase
    split at h
    · cases h
    cases h
    have hmark' : Dir.has (s.dir.insert name bin) .marker = true := by
      rw [has_insert, hmark, Bool.or_true]
    refine ⟨fun _ => ?_, fun _ _ => hmark', fun ht => absurd ht (by simp [hrec]), ?_⟩
    · show Whole sha256 _ s.made
      rw [hmade]
      trivial
    by_cases hname : name = .current
    · rw [if_pos hname]
      show Dir.has (s.dir.insert name bin) .current = true
      simp [has_insert, hname]
    · rw [if_neg hname]
      exact ⟨hrec, hmade, hmark'⟩
  · cases h

theorem sound_reconcile (h : step sha256 s (.reconcile ok) = some u) : Sound sha256 u := by
  simp only [step] at h
  split at h
  next hphase =>
    have hcur : s.dir.has .current = true := by simpa only [PhaseOk, hphase] using hs.phase
    split at h
    · cases h
      exact ⟨hs.whole, fun hf => (nomatch hf), fun _ => hcur, rfl⟩
    · cases h
      exact hs.atPhase trivial
  · cases h

end

theorem Whole.erase_marker (h : Whole sha256 dir made) : Whole sha256 (dir.erase .marker) made := by
  cases made with
  | nothing | fresh => trivial
  | restored m =>
    intro e he
    have hname : e.name ≠ .marker := fun hm => m.unmarked (hm ▸ mem_map_of_mem he)
    have hget : KV.Map.get (dir.erase .marker) e.name = dir.get e.name := lookup_erase_ne hname
    rw [hget]
    exact h e he

theorem sound_unmark (hs : Sound sha256 s) (h : step sha256 s (.unmark ok) = some u) :
    Sound sha256 u := by
  simp only [step] at h
  split at h
  next hphase =>
    have hrec : s.reconciled = true := by simpa only [PhaseOk, hphase] using hs.phase
    cases h
    cases ok with
    | false => exact hs.atPhase trivial
    | true =>
      have hcur := hs.current hrec
      refine ⟨fun _ => (hs.whole hcur).erase_marker, fun hf => absurd hf (by simp [hrec]),
        fun _ => ?_, trivial⟩
      show Dir.has (s.dir.erase .marker) .current = true
      rw [has_erase, hcur]
      rfl
  · cases h

theorem sound_torn (hs : Sound sha256 s) {n : Nat} (h : step sha256 s (.torn n bin) = some u) :
    Sound sha256 u := by
  simp only [step] at h
  split at h
  next hphase =>
    obtain ⟨hrec, hempty⟩ : s.reconciled = false ∧ s.dir.keys = [] := by
      simpa only [PhaseOk, hphase] using hs.phase
    have hnone := not_has_of_keys_nil hempty
    cases h
    have hcur : Dir.has (s.dir.insert (.tmp .marker n) bin) .current = false := by
      simp [has_insert, hnone]
    -- the marker's temporary file holds no data, so nothing asks for the marker
    have hno : Dir.NoData (s.dir.insert (.tmp .marker n) bin) := by
      refine noData_iff.2 fun x hx => ?_
      rw [has_insert, hnone, Bool.or_false] at hx
      rw [of_decide_eq_true hx]
      rfl
    refine ⟨fun hc => absurd hc (by simp [hcur]), fun _ hdata => ?_,
      fun ht => absurd ht (by simp [hrec]), trivial⟩
    exact absurd hdata (by simp [hcur, hno])
  next e todo hphase =>
    have hok := hs.phase
    simp only [PhaseOk, hphase] at hok
    obtain ⟨hrec, -, hmark, pre, -, -, hcur⟩ := hok
    cases h
    have hnocur : Dir.has (s.dir.insert (.tmp e.name n) bin) .current = false := by
      simp [has_insert, hcur (cons_ne_nil _ _)]
    have hmark' : Dir.has (s.dir.insert (.tmp e.name n) bin) .marker = true := by
      rw [has_insert, hmark, Bool.or_true]
    exact ⟨fun hc => absurd hc (by simp [hnocur]), fun _ _ => hmark',
      fun ht => absurd ht (by simp [hrec]), trivial⟩
  · cases h

theorem sound_step (s : State) (e : Event) (u : State) (hs : Sound sha256 s) (horder : InOrder s e)
    (h : step sha256 s e = some u) : Sound sha256 u := by
  cases e with
  | boot => exact sound_boot hs h
  | load => exact sound_load hs h
  | rm => exact sound_rm hs horder h
  | cleared => exact sound_cleared hs h
  | mark => exact sound_mark hs h
  | file => exact sound_file hs h
  | create => exact sound_create hs h
  | reconcile => exact sound_reconcile hs h
  | unmark => exact sound_unmark hs h
  | torn => exact sound_torn hs h
  | crash =>
    cases h
    exact hs.atPhase trivial

theorem Blank.sound (hs : Blank s) : Sound sha256 s where
  whole hc := absurd hc (by simp [hs.current])
  marked _ hdata := absurd hdata (by simp [hs.current, hs.data])
  current ht := absurd ht (by simp [hs.reconciled])
  phase := by simp only [PhaseOk, hs.down]

end Invariant

/-- At every point of a run whose clears go in order: `CURRENT` means a whole, checked database; a
database or data files not reconciled yet stand beside the marker; and without `CURRENT` the next
boot's restore is not refused. -/
theorem restore_sound (sha256 : Bin → Bin) {s t : State} {es : List Event} (hs : Blank s)
    (horder : Run.Along (step sha256) InOrder s es) (hrun : Run.exec (step sha256) s es = some t) :
    (t.dir.has .current = true → Whole sha256 t.dir t.made) ∧
    (t.reconciled = false → t.dir.has .current = true ∨ ¬t.dir.NoData → t.dir.has .marker = true) ∧
    (t.dir.has .current = false → checkRestorable t.dir = true) := by
  have ht : Sound sha256 t := invariant_along sound_step hs.sound horder hrun
  refine ⟨ht.whole, ht.marked, fun hcur => ?_⟩
  have hrec : t.reconciled = false :=
    Bool.eq_false_iff.2 fun hr => absurd (ht.current hr) (by simp [hcur])
  by_cases hdata : t.dir.NoData
  · simp [checkRestorable, hdata]
  · simp [checkRestorable, ht.marked hrec (.inr hdata)]

/-! A backup of three files, its digest the file itself. -/

/-- A data file. -/
def table : Entry := { name := .table "000012.sst", size := 2, sha256 := [1, 2] }

/-- The file that makes the directory a database. -/
def current : Entry := { name := .current, size := 1, sha256 := [7] }

/-- A backup of three files. -/
def backup : Manifest :=
  { id := [9], newer := false, files := [current, table, ⟨.manifest 5, 1, [3]⟩],
    current := by decide
    unmarked := by decide, distinct := by decide }

/-- An empty directory. -/
def newDisk : State := { dir := ∅, phase := .down, made := .nothing, reconciled := false }

theorem blank_newDisk : Blank newDisk where
  down := rfl
  current := rfl
  data := rfl
  reconciled := rfl

/-- A boot that finds the backup. -/
def boot : List Event := [.boot true, .load (.found backup)]

/-- The process dies with one file down and one half written; the next boot clears both, the marker
    last, and restores. -/
def interrupted : List Event :=
  boot ++ [.cleared, .mark .ok, .file (some [1, 2]) .ok, .torn 1 []] ++
    boot ++ [.rm (.table "000012.sst") true, .rm (.tmp (.manifest 5) 1) true,
      .rm .marker true, .cleared, .mark .ok, .file (some [1, 2]) .ok, .file (some [3]) .ok,
      .file (some [7]) .ok, .file none .ok,
      .crash, .boot true]

theorem restore_sound_interrupted :
    ∃ t, Run.exec (step id) newDisk interrupted = some t ∧ t.phase = .reconciling ∧
      Whole id t.dir t.made ∧ t.dir.has .marker = true := by
  obtain ⟨t, ht, hphase, hcur, hrec⟩ :=
    of_exec (P := fun t => t.phase = .reconciling ∧ t.dir.has .current = true ∧
      t.reconciled = false) (show Option.any _ (exec (step id) newDisk interrupted) = true by
        decide +kernel)
  obtain ⟨hwhole, hmarked, -⟩ := restore_sound id blank_newDisk (by decide +kernel) ht
  exact ⟨t, ht, hphase, hwhole hcur, hmarked hrec (.inl hcur)⟩

/-- The listing gives the marker before a data file and the process dies between the two: the next
boot refuses. And `CURRENT` whose directory could not be synced is there while the clear for the
second target takes the tables. -/
theorem restore_refused :
    Blank newDisk ∧
    (∃ t, Run.exec (step id) newDisk (boot ++
      [.cleared, .mark .ok, .file (some [1, 2]) .ok, .crash] ++
        boot ++ [.rm .marker true, .crash]) = some t ∧
      t.dir.has .current = false ∧ checkRestorable t.dir = false) ∧
    (∃ t, Run.exec (step id) newDisk (boot ++ [.cleared, .mark .ok, .file (some [1, 2]) .ok,
        .file (some [3]) .ok, .file (some [7]) .renamed, .load (.found backup),
        .rm (.table "000012.sst") true, .crash]) = some t ∧
      t.dir.has .current = true ∧ ¬Whole id t.dir t.made) :=
  ⟨blank_newDisk, of_exec (by decide +kernel), of_exec (by decide +kernel)⟩

end Ankusa.Store.Restore
