import Ankusa.Lib.Counter
import Ankusa.Lib.Run
import Ankusa.Lib.Slots
import Mathlib.Data.List.Sort

set_option autoImplicit false

/-! # The bytes of the quarantine pen

`edge/quarantine.ex` bounds what the pen holds by a byte counter of a shared table. A put adds its
size before it asks for its write, and takes it off again when it is refused or its write fails; a
caller that gives up waiting leaves it counted. Entries leave the pen through three kinds of
deleters, each of which scans, deletes what it has found in one batch and gives the bytes of it
back: the operator's purge (in the pen process), the retention prune (in a process of its own) and
the replay release.

Nothing ties a deleter to the entries it has found. Two that have found the same entry both give its
bytes back (`purgeAndPrune_overfill`), a purge that finds nothing gives back zero bytes, which
empties the counter (`Counter.floored`), and a write that is reported as failed may be on disk.
Without these (`Exclusive`) the counter is never smaller than what is stored, which is never more
than `max_bytes` (`stored_le_of_exclusive`). -/

namespace Ankusa.Quarantine.Pen

open List Slots Run

open Slots (total)

/-! ## Entries -/

/-- An entry's key: its receive time, and its id as the number its bytes spell. -/
structure Key where
  receivedAt : Nat
  id : Nat
  deriving DecidableEq, Repr

/-- The order of the keys in the store. -/
def Key.le (a b : Key) : Prop :=
  a.receivedAt < b.receivedAt ∨ (a.receivedAt = b.receivedAt ∧ a.id ≤ b.id)

instance Key.decidableLe : DecidableRel Key.le := fun _ _ => inferInstanceAs (Decidable (_ ∨ _))

/-- What a summary says about its entry. Entries of older releases have no tenant or no size. -/
structure Summary where
  sourceId : String
  tenantId : Option String
  size : Option Nat
  deriving DecidableEq, Repr

/-- A stored entry; its summary may not decode. -/
structure Entry where
  key : Key
  summary : Option Summary
  deriving DecidableEq, Repr

/-- `summary_size`: what an entry counts against the cap. -/
def Entry.size (e : Entry) : Nat := (e.summary.bind Summary.size).getD 0

/-- `sized`: an entry's size, in which the encoded summary counts at least its first byte. -/
def sized (encoded : Nat) : Nat := encoded + 1

/-- What purges and replay jobs select. -/
structure Filter where
  sourceId : Option String
  id : Option Nat
  tenants : Option (List String)
  since : Option Nat
  upto : Option Nat

/-- `matches?` for a summary that decodes. An entry without a tenant belongs to `"default"`. -/
def Filter.selects (f : Filter) (key : Key) (summary : Summary) : Bool :=
  f.sourceId.all (· = summary.sourceId) && f.id.all (· = key.id) &&
    f.tenants.all fun tenants => summary.tenantId.getD "default" ∈ tenants

/-- Only the time is filtered. -/
def Filter.unfiltered (f : Filter) : Bool := f.sourceId.isNone && f.id.isNone && f.tenants.isNone

/-- The key is in the range of times. -/
def Filter.inRange (f : Filter) (key : Key) : Bool :=
  f.since.all (· ≤ key.receivedAt) && f.upto.all (key.receivedAt ≤ ·)

/-- Whether a purge with this filter takes the entry. -/
def Filter.hit (f : Filter) (e : Entry) : Bool :=
  f.inRange e.key && match e.summary with
    | some summary => f.selects e.key summary
    | none => f.unfiltered

/-- `purge_hits`: the oldest entries a filter takes, at most `limit`. -/
def purgeHits (f : Filter) (limit : Nat) (stored : List Entry) : List Entry :=
  (stored.filter f.hit).take (max 1 limit)

/-- The entries of a page of a replay job that verify by now. -/
def releaseHits (f : Filter) (passed : List Key) (stored : List Entry) : List Entry :=
  stored.filter fun e => f.hit e && e.summary.isSome && e.key ∈ passed

/-- The store without the entries of a delete batch. -/
def without (hits : List Entry) (stored : List Entry) : List Entry :=
  stored.filter fun e => e.key ∉ hits.map Entry.key

/-- The store with the entries of a group commit. -/
def withAll (entries : List Entry) (stored : List Entry) : List Entry :=
  entries.foldr (List.orderedInsert fun a b => a.key.le b.key) stored

/-! ## The pen and the processes around it -/

/-- Where a put is: its bytes are counted and within the cap; over it, and to be given back; too
    many writes wait, so its place among them and then its bytes are to be given back; its write is
    in the pen's mailbox, with or without a caller that still waits; it was told that the write
    failed. -/
inductive Phase where
  | counted
  | full
  | overload
  | unpended
  | queued
  | orphaned
  | failed
  deriving DecidableEq, Repr

/-- A put under way. -/
structure Put where
  entry : Entry
  phase : Phase

/-- The size the put reserves. -/
def Put.size (p : Put) : Nat := p.entry.size

/-- What a put may still bring into the store. -/
def Put.admitted (p : Put) : Nat := if p.phase = .full then 0 else p.size

theorem Put.admitted_le (p : Put) : p.admitted ≤ p.size := by
  unfold Put.admitted
  split_ifs <;> omega

/-- The put waits in the pen's mailbox. -/
def Put.inMailbox (p : Put) : Bool := p.phase = .queued || p.phase = .orphaned

/-- A process that deletes entries: it has found them, or it has deleted them and has their bytes to
    give back. -/
inductive Deleter where
  | scanned (hits : List Entry)
  | deleted (bytes : Nat)
  deriving DecidableEq, Repr

/-- The bytes a deleter has still to give back. -/
def Deleter.owed : Deleter → Nat
  | .scanned _ => 0
  | .deleted bytes => bytes

/-- What the deleter has scanned. -/
def Deleter.hits : Deleter → List Entry
  | .scanned hits => hits
  | .deleted _ => []

/-- What the pen process is at: nothing, a group of writes it has answered but not taken off the
    waiting ones, or a purge. -/
inductive Process where
  | idle
  | answered (n : Nat)
  | purging (d : Deleter)
  deriving DecidableEq, Repr

/-- The bytes the pen has still to give back. -/
def Process.owed : Process → Nat
  | .purging d => d.owed
  | _ => 0

/-- What the pen has scanned. -/
def Process.hits : Process → List Entry
  | .purging d => d.hits
  | _ => []

/-- The store, the two counters, the keys used so far, the puts, the pen process and the deleters
    beside it. -/
structure State where
  stored : List Entry
  bytes : Int
  pending : Int
  keys : List Key
  puts : List Put
  pen : Process
  deleters : List Deleter

/-- The answer of a store write; one that fails may have landed. -/
inductive Written where
  | ok
  | failed (landed : Bool)

/-- The steps of the callers, the pen and the deleters. -/
inductive Event where
  | put (key : Key) (sourceId : String) (tenantId : Option String) (encoded : Nat)
  | pend (i : Nat)
  | giveBack (i : Nat)
  | timeout (i : Nat)
  | group (keys : List Key) (w : Written)
  | unpend
  | purge (f : Filter) (limit : Nat)
  | purgeCommit (w : Written)
  | purgeGiveBack
  | prune (upto : Nat)
  | release (f : Filter) (passed : List Key)
  | commit (i : Nat) (w : Written)
  | released (i : Nat)

/-- The puts that may wait for the pen. -/
def maxPending : Int := 1000

/-- The puts the pen writes at once. -/
def writeGroup : Nat := 256

/-- The entries a retention pass scans at once. -/
def retentionChunk : Nat := 1000

/-- Put `i` goes on to `phase`. -/
def State.setPhase (s : State) (i : Nat) (p : Put) (phase : Phase) : State :=
  { s with puts := s.puts.set i { p with phase } }

/-- The first counter update of `reserve_and_write`. -/
def reserve (maxBytes : Nat) (s : State) (e : Entry) : State :=
  { s with
    bytes := s.bytes + e.size
    keys := e.key :: s.keys
    puts := ⟨e, if maxBytes < s.bytes + e.size then .full else .counted⟩ :: s.puts }

/-- A put that was refused or whose write failed takes one more of its counts back. -/
def giveBack (s : State) (i : Nat) (p : Put) : Option State :=
  match p.phase with
  | .overload => some { s.setPhase i p .unpended with pending := Counter.floored 1 s.pending }
  | .full | .unpended | .failed =>
    some { s with bytes := Counter.floored p.size s.bytes, puts := s.puts.eraseIdx i }
  | _ => none

/-- Whether a group commit takes this write. -/
def taken (keys : List Key) (p : Put) : Bool := p.inMailbox && p.entry.key ∈ keys

/-- The entries a group commit writes. -/
def groupEntries (keys : List Key) (puts : List Put) : List Entry :=
  (puts.filter (taken keys)).map Put.entry

/-- The puts once their group has been answered with an error: those that wait are told, the others
    are gone, with their bytes counted. -/
def failGroup (keys : List Key) (puts : List Put) : List Put :=
  (puts.filter fun p => !(taken keys p && p.phase = .orphaned)).map fun p =>
    if taken keys p then { p with phase := .failed } else p

/-- The group commit of `handle_call({:write, ..})`. -/
def group (s : State) (keys : List Key) (w : Written) : State :=
  let entries := groupEntries keys s.puts
  let pen := Process.answered entries.length
  match w with
  | .ok =>
    { s with
      stored := withAll entries s.stored
      puts := s.puts.filter fun p => !taken keys p
      pen }
  | .failed landed =>
    { s with
      stored := if landed then withAll entries s.stored else s.stored
      puts := failGroup keys s.puts
      pen }

/-- The store after a delete batch, and what the deleter has to give back if the batch was not
    refused. -/
def commitDeletes (hits stored : List Entry) : Written → List Entry × Option Deleter
  | .ok => (without hits stored, some (.deleted (total Entry.size hits)))
  | .failed landed => (if landed then without hits stored else stored, none)

/-- `released`: zero bytes are not given back at all. -/
def released (bytes : Int) (freed : Nat) : Int :=
  if freed = 0 then bytes else Counter.floored freed bytes

/-- One step of a caller, the pen or a deleter. -/
def step (maxBytes : Nat) (s : State) : Event → Option State
  | .put key sourceId tenantId encoded =>
    if key ∈ s.keys then none
    else some (reserve maxBytes s ⟨key, some ⟨sourceId, tenantId, some (sized encoded)⟩⟩)
  | .pend i =>
    match s.puts[i]? with
    | some ⟨e, .counted⟩ =>
      let pending := s.pending + 1
      let phase := if maxPending < pending then Phase.overload else .queued
      some { s.setPhase i ⟨e, .counted⟩ phase with pending }
    | _ => none
  | .giveBack i => s.puts[i]?.bind (giveBack s i)
  | .timeout i =>
    match s.puts[i]? with
    | some ⟨e, .queued⟩ => some (s.setPhase i ⟨e, .queued⟩ .orphaned)
    | _ => none
  | .group keys w =>
    let n := (groupEntries keys s.puts).length
    if s.pen = .idle ∧ 0 < n ∧ n ≤ writeGroup then some (group s keys w) else none
  | .unpend =>
    match s.pen with
    | .answered n => some { s with pending := Counter.floored n s.pending, pen := .idle }
    | _ => none
  | .purge f limit =>
    if s.pen = .idle then some { s with pen := .purging (.scanned (purgeHits f limit s.stored)) }
      else none
  | .purgeCommit w =>
    match s.pen with
    | .purging (.scanned hits) =>
      let (stored, left) := commitDeletes hits s.stored w
      some { s with stored, pen := left.elim .idle .purging }
    | _ => none
  | .purgeGiveBack =>
    match s.pen with
    | .purging (.deleted bytes) =>
      some { s with bytes := Counter.floored bytes s.bytes, pen := .idle }
    | _ => none
  | .prune upto =>
    let hits := purgeHits ⟨none, none, none, none, some upto⟩ retentionChunk s.stored
    some { s with deleters := .scanned hits :: s.deleters }
  | .release f passed =>
    some { s with deleters := .scanned (releaseHits f passed s.stored) :: s.deleters }
  | .commit i w =>
    match s.deleters[i]? with
    | some (.scanned hits) =>
      let (stored, left) := commitDeletes hits s.stored w
      some { s with stored, deleters := left.toList ++ s.deleters.eraseIdx i }
    | _ => none
  | .released i =>
    match s.deleters[i]? with
    | some (.deleted bytes) =>
      some { s with bytes := released s.bytes bytes, deleters := s.deleters.eraseIdx i }
    | _ => none

/-- The pen after `init`: the counter is the sum over what is stored. -/
def boot (stored : List Entry) : State :=
  ⟨stored, total Entry.size stored, 0, stored.map Entry.key, [], .idle, []⟩

/-! ## What scans and batches do to the sums -/

theorem purgeHits_sublist (f : Filter) (limit : Nat) (stored : List Entry) :
    (purgeHits f limit stored).Sublist stored :=
  (take_sublist _ _).trans filter_sublist

theorem withAll_perm (entries stored : List Entry) :
    (withAll entries stored).Perm (entries ++ stored) := by
  induction entries with
  | nil => exact .refl _
  | cons e entries ih => exact (perm_orderedInsert _ e _).trans (ih.cons e)

variable {stored : List Entry} {hits : List Entry}

/-- A delete batch whose entries are all still there takes exactly their bytes. -/
theorem total_without (hkeys : (stored.map Entry.key).Nodup)
    (hhits : (hits.map Entry.key).Nodup) (hthere : ∀ e ∈ hits, e ∈ stored) :
    total Entry.size (without hits stored) + total Entry.size hits = total Entry.size stored := by
  have hfound : (stored.filter fun e => !decide (e.key ∉ hits.map Entry.key)).Perm hits := by
    refine (perm_ext_iff_of_nodup (hkeys.of_map.filter _) hhits.of_map).2 fun e => ?_
    simp only [mem_filter, decide_not, Bool.not_not, decide_eq_true_eq]
    constructor
    · rintro ⟨hstored, hkey⟩
      obtain ⟨e', he', hsame⟩ := mem_map.1 hkey
      rwa [← inj_on_of_nodup_map hkeys (hthere e' he') hstored hsame]
    · exact fun he => ⟨hthere e he, mem_map_of_mem he⟩
  have hsplit := total_filter Entry.size (fun e => decide (e.key ∉ hits.map Entry.key)) stored
  rwa [total_perm Entry.size hfound] at hsplit

theorem total_without_le (hits stored : List Entry) :
    total Entry.size (without hits stored) ≤ total Entry.size stored :=
  Nat.le.intro (total_filter Entry.size (fun e => decide (e.key ∉ hits.map Entry.key)) stored)

/-! ## The invariant -/

/-- The keys of what is stored and of what may be written. -/
def State.inUse (s : State) : List Key := s.stored.map Entry.key ++ s.puts.map fun p => p.entry.key

/-- Everything that is counted: what is stored, the puts that have not given their bytes back, and
    what was deleted and not given back. -/
def State.counted (s : State) : Nat :=
  total Entry.size s.stored + total Put.size s.puts + s.pen.owed + total Deleter.owed s.deleters

/-- What is stored and reserved stays under the cap, and the counter covers it. -/
structure Sound (maxBytes : Nat) (s : State) : Prop where
  inUse : s.inUse.Nodup
  used : ∀ k ∈ s.inUse, k ∈ s.keys
  sizes : ∀ p ∈ s.puts, 0 < p.size
  purge : (s.pen.hits.map Entry.key).Nodup
  hits : ∀ d ∈ s.deleters, (d.hits.map Entry.key).Nodup
  counter : (s.counted : Int) ≤ s.bytes
  cap : total Entry.size s.stored + total Put.admitted s.puts ≤ maxBytes

variable {maxBytes : Nat} {s t : State} {e : Event}

theorem Sound.storedKeys (h : Sound maxBytes s) : (s.stored.map Entry.key).Nodup :=
  (nodup_append.1 h.inUse).1

/-- Only the store and the deleters matter to a step that leaves the puts alone. -/
theorem Sound.of_deletes (h : Sound maxBytes s) (pen : Process) {bytes : Int}
    {deleters : List Deleter} (hstored : stored.Sublist s.stored)
    (hpurge : (pen.hits.map Entry.key).Nodup) (hhits : ∀ d ∈ deleters, (d.hits.map Entry.key).Nodup)
    (hcounter : ((total Entry.size stored + total Put.size s.puts + pen.owed +
      total Deleter.owed deleters : Nat) : Int) ≤ bytes) (pending : Int) :
    Sound maxBytes { s with stored, bytes, pending, pen, deleters } := by
  have hkeys : (stored.map Entry.key ++ s.puts.map fun p => p.entry.key).Sublist s.inUse :=
    (hstored.map _).append (Sublist.refl _)
  have hle : total Entry.size stored ≤ total Entry.size s.stored := total_sublist _ hstored
  exact ⟨h.inUse.sublist hkeys, fun k hk => h.used k (hkeys.subset hk), h.sizes, hpurge,
    hhits, hcounter, by have := h.cap; dsimp only; omega⟩

variable {i : Nat} {p : Put}

open State

section

variable (h : Sound maxBytes s)
include h

section

variable (hget : s.puts[i]? = some p)
include hget

/-- A put goes on, with what it has counted. -/
theorem Sound.setPhase (hfull : p.phase ≠ .full) (phase : Phase) (pending : Int) :
    Sound maxBytes { s.setPhase i p phase with pending } := by
  have hkeys : ((s.puts.set i { p with phase }).map fun p => p.entry.key) =
      s.puts.map fun p => p.entry.key := by
    have hkey : (s.puts.map fun p => p.entry.key)[i]? = some p.entry.key := by
      rw [getElem?_map, hget, Option.map_some]
    obtain ⟨hi, hkey⟩ := List.getElem?_eq_some_iff.1 hkey
    rw [map_set, ← hkey, set_getElem_self]
  have hinUse : ({ s.setPhase i p phase with pending } : State).inUse = s.inUse := by
    simp only [State.inUse, State.setPhase, hkeys]
  have hsize := total_set Put.size hget { p with phase }
  have hadmitted := total_set Put.admitted hget { p with phase }
  have hsame : Put.size { p with phase } = p.size := rfl
  have hless : Put.admitted { p with phase } ≤ p.admitted := by
    simp only [Put.admitted, if_neg hfull, hsame]
    split_ifs <;> omega
  refine ⟨hinUse ▸ h.inUse, fun k hk => h.used k (hinUse ▸ hk), ?_, h.purge, h.hits, ?_, ?_⟩
  · intro q hq
    rcases mem_or_eq_of_mem_set hq with hold | rfl
    · exact h.sizes q hold
    · exact h.sizes p (mem_of_getElem? hget)
  · have hcounter := h.counter
    simp only [State.counted, State.setPhase] at hcounter ⊢
    omega
  · have hcap := h.cap
    simp only [State.setPhase]
    omega

theorem Sound.unreserve :
    Sound maxBytes { s with
      bytes := Counter.floored p.size s.bytes, puts := s.puts.eraseIdx i } := by
  have hkeys : (s.stored.map Entry.key ++ (s.puts.eraseIdx i).map
      fun p => p.entry.key).Sublist s.inUse :=
    (Sublist.refl _).append ((eraseIdx_sublist ..).map _)
  have hsize := total_eraseIdx Put.size hget
  have hadmitted := total_eraseIdx Put.admitted hget
  have hpos := h.sizes p (mem_of_getElem? hget)
  have hcounter := h.counter
  have hcap := h.cap
  refine ⟨h.inUse.sublist hkeys, fun k hk => h.used k (hkeys.subset hk),
    fun q hq => h.sizes q (mem_of_mem_eraseIdx hq), h.purge, h.hits, ?_, ?_⟩
  · simp only [counted] at hcounter ⊢
    rw [Counter.floored_of_le (by omega) (by omega) (by omega)]
    omega
  · dsimp only
    omega

theorem Sound.giveBack (hback : giveBack s i p = some t) : Sound maxBytes t := by
  unfold Pen.giveBack at hback
  split at hback
  next hphase =>
    cases hback
    exact h.setPhase hget (by rw [hphase]; nofun) .unpended _
  · cases hback
    exact h.unreserve hget
  · cases hback
    exact h.unreserve hget
  · cases hback
    exact h.unreserve hget
  · cases hback

end

theorem Sound.reserve {e : Entry} (hnew : e.key ∉ s.keys) (hpos : 0 < e.size) :
    Sound maxBytes (reserve maxBytes s e) := by
  have hcounter := h.counter
  have hcap := h.cap
  have hadmitted := total_le_total Put.admitted_le s.puts
  have hinUse : ((Pen.reserve maxBytes s e).inUse).Perm (e.key :: s.inUse) := perm_middle
  refine ⟨hinUse.nodup_iff.2 (nodup_cons.2 ⟨fun hmem => hnew (h.used _ hmem), h.inUse⟩), ?_, ?_,
    h.purge, h.hits, ?_, ?_⟩
  · intro k hk
    rcases mem_cons.1 (hinUse.mem_iff.1 hk) with rfl | hold
    · exact mem_cons_self
    · exact mem_cons_of_mem _ (h.used k hold)
  · exact forall_mem_cons.2 ⟨hpos, h.sizes⟩
  · simp only [counted, Pen.reserve, total_cons, Put.size] at hcounter ⊢
    omega
  · -- Only a put that found room may bring its bytes into the store.
    simp only [counted] at hcounter
    simp only [Pen.reserve, total_cons, Put.admitted, Put.size]
    by_cases hover : (maxBytes : Int) < s.bytes + e.size
    · simp only [if_pos hover, if_true]
      omega
    · simp only [if_neg hover, reduceCtorEq, if_false]
      omega

end

theorem admitted_of_taken {keys : List Key} (h : taken keys p = true) : p.admitted = p.size := by
  refine if_neg fun hfull => ?_
  rw [taken, Put.inMailbox, hfull] at h
  simp at h

/-- A group commit moves its entries from the puts to the store. -/
theorem Sound.commitGroup (h : Sound maxBytes s) (keys : List Key) (n : Nat)
    (hidle : s.pen = .idle) : Sound maxBytes { s with
      stored := withAll (groupEntries keys s.puts) s.stored
      puts := s.puts.filter fun p => !taken keys p
      pen := .answered n } := by
  have hstored := withAll_perm (groupEntries keys s.puts) s.stored
  have hinUse : (((withAll (groupEntries keys s.puts) s.stored).map Entry.key) ++
      ((s.puts.filter fun p => !taken keys p).map fun p => p.entry.key)).Perm s.inUse := by
    have hmoved := (filter_append_perm (taken keys) s.puts).map fun p => p.entry.key
    have hkeys := hstored.map Entry.key
    rw [map_append] at hmoved hkeys
    have hentries : (groupEntries keys s.puts).map Entry.key =
        (s.puts.filter (taken keys)).map fun p => p.entry.key := map_map
    rw [hentries] at hkeys
    refine (hkeys.append_right _).trans ((perm_append_comm.append_right _).trans ?_)
    rw [append_assoc]
    exact hmoved.append_left _
  have hsize := total_filter Put.size (taken keys) s.puts
  have hadmitted := total_filter Put.admitted (taken keys) s.puts
  have hentries : total Entry.size (groupEntries keys s.puts) =
      total Put.size (s.puts.filter (taken keys)) := total_map _ _ _
  have hwritten : total Put.admitted (s.puts.filter (taken keys)) =
      total Put.size (s.puts.filter (taken keys)) :=
    congrArg List.sum (map_congr_left fun p hp => admitted_of_taken (mem_filter.1 hp).2)
  have hgroup := (total_perm Entry.size hstored).trans (total_append _ _ _)
  have hcounter := h.counter
  have hcap := h.cap
  refine ⟨hinUse.nodup_iff.2 h.inUse, fun k hk => h.used k (hinUse.mem_iff.1 hk),
    fun p hp => h.sizes p (mem_of_mem_filter hp), nodup_nil, h.hits, ?_, ?_⟩
  · simp only [counted, hidle, Process.owed] at hcounter ⊢
    omega
  · dsimp only
    omega

theorem failGroup_le {w : Put → Nat} (keys : List Key)
    (hw : ∀ p, taken keys p = true → w { p with phase := .failed } = w p) (puts : List Put) :
    total w (failGroup keys puts) ≤ total w puts := by
  have hsame : (fun p => w (if taken keys p then { p with phase := .failed } else p)) = w := by
    funext p
    split_ifs with htaken
    · exact hw p htaken
    · rfl
  rw [failGroup, total_map, hsame]
  exact total_sublist w filter_sublist

theorem failGroup_keys (keys : List Key) (puts : List Put) :
    ((failGroup keys puts).map fun p => p.entry.key).Sublist (puts.map fun p => p.entry.key) := by
  have hsame : ((fun p : Put => p.entry.key) ∘ fun p =>
      if taken keys p then { p with phase := .failed } else p) = fun p => p.entry.key := by
    funext p
    simp only [Function.comp]
    split_ifs <;> rfl
  rw [failGroup, map_map, hsame]
  exact filter_sublist.map _

/-- A group that failed and left nothing: its callers have their bytes to give back, or have given
    up. -/
theorem Sound.failGroup (h : Sound maxBytes s) (keys : List Key) (n : Nat) (hidle : s.pen = .idle) :
    Sound maxBytes { s with puts := Pen.failGroup keys s.puts, pen := .answered n } := by
  have hkeys : (s.stored.map Entry.key ++ (Pen.failGroup keys s.puts).map fun p =>
    p.entry.key).Sublist
      s.inUse := (Sublist.refl _).append (failGroup_keys keys s.puts)
  have hsize := failGroup_le (w := Put.size) keys (fun _ _ => rfl) s.puts
  have hadmitted := failGroup_le (w := Put.admitted) keys
    (fun p htaken => (if_neg nofun).trans (admitted_of_taken htaken).symm) s.puts
  have hcounter := h.counter
  have hcap := h.cap
  refine ⟨h.inUse.sublist hkeys, fun k hk => h.used k (hkeys.subset hk), ?_, nodup_nil,
    h.hits, ?_, ?_⟩
  · refine forall_mem_map.2 fun q hq => ?_
    have hpos := h.sizes q (mem_of_mem_filter hq)
    split_ifs
    · exact hpos
    · exact hpos
  · simp only [counted, hidle, Process.owed] at hcounter ⊢
    omega
  · dsimp only
    omega

/-! ## Runs -/

/-- A write that is reported as failed has left nothing; what a delete batch deletes is still there;
    and a purge that deleted no bytes finds none counted. -/
def Exclusive (s : State) : Event → Prop
  | .group _ (.failed landed) => landed = false
  | .purgeCommit .ok => ∀ e ∈ s.pen.hits, e ∈ s.stored
  | .purgeGiveBack => s.pen = .purging (.deleted 0) → s.bytes = 0
  | .commit i .ok => ∀ d ∈ s.deleters[i]?, ∀ e ∈ d.hits, e ∈ s.stored
  | _ => True

/-- A deleter's batch: the entries go, and their bytes are owed if it knows. -/
theorem commitDeletes_spec {stored' : List Entry} {w : Written} {left : Option Deleter}
    (hkeys : (stored.map Entry.key).Nodup) (hhits : (hits.map Entry.key).Nodup)
    (hthere : w = .ok → ∀ e ∈ hits, e ∈ stored)
    (h : commitDeletes hits stored w = (stored', left)) :
    stored'.Sublist stored ∧ (∀ d ∈ left, d.hits = []) ∧
      total Entry.size stored' + total Deleter.owed left.toList ≤ total Entry.size stored := by
  cases w with
  | ok =>
    obtain ⟨rfl, rfl⟩ := Prod.mk.inj h
    refine ⟨filter_sublist, fun d hd => ?_, (total_without hkeys hhits (hthere rfl)).le⟩
    cases hd
    rfl
  | failed =>
    obtain ⟨rfl, rfl⟩ := Prod.mk.inj h
    refine ⟨?_, nofun, ?_⟩
    · split_ifs
      · exact filter_sublist
      · exact Sublist.refl _
    · split_ifs
      · exact total_without_le hits stored
      · exact Nat.le_refl _

theorem Sound.step (h : Sound maxBytes s) (hok : Exclusive s e)
    (hstep : Pen.step maxBytes s e = some t) : Sound maxBytes t := by
  have hcounter := h.counter
  simp only [counted] at hcounter
  cases e with
  | put key sourceId tenantId encoded =>
    simp only [Pen.step] at hstep
    split_ifs at hstep with hused
    cases hstep
    exact h.reserve hused (Nat.succ_pos encoded)
  | pend =>
    simp only [Pen.step] at hstep
    split at hstep
    next hget =>
      cases hstep
      exact h.setPhase hget nofun _ _
    · cases hstep
  | giveBack =>
    obtain ⟨p, hget, hback⟩ := Option.bind_eq_some_iff.1 hstep
    exact h.giveBack hget hback
  | timeout =>
    simp only [Pen.step] at hstep
    split at hstep
    next hget =>
      cases hstep
      exact h.setPhase hget nofun .orphaned s.pending
    · cases hstep
  | group keys w =>
    obtain ⟨hidle, rfl⟩ := guarded hstep
    cases w with
    | ok => exact h.commitGroup keys _ hidle.1
    | failed landed =>
      obtain rfl : landed = false := hok
      exact h.failGroup keys _ hidle.1
  | unpend =>
    simp only [Pen.step] at hstep
    split at hstep
    next hpen =>
      cases hstep
      rw [hpen] at hcounter
      exact h.of_deletes .idle (Sublist.refl _) nodup_nil h.hits hcounter _
    · cases hstep
  | purge f limit =>
    obtain ⟨hidle, rfl⟩ := guarded hstep
    rw [hidle] at hcounter
    exact h.of_deletes (.purging (.scanned _)) (Sublist.refl _)
      (h.storedKeys.sublist ((purgeHits_sublist f limit s.stored).map _)) h.hits hcounter _
  | purgeCommit w =>
    simp only [Pen.step] at hstep
    split at hstep
    next hits hpen =>
      have hhits := h.purge
      rw [hpen] at hcounter hhits
      obtain ⟨⟨stored, left⟩, hcommit⟩ : ∃ r, commitDeletes hits s.stored w = r := ⟨_, rfl⟩
      rw [hcommit] at hstep
      cases hstep
      obtain ⟨hsub, hdone, htotal⟩ := commitDeletes_spec h.storedKeys hhits (fun hw e he => by
        subst hw
        exact hok e (by rwa [hpen])) hcommit
      refine h.of_deletes (left.elim .idle .purging) hsub ?_ h.hits ?_ _
      · cases left with
        | none => exact nodup_nil
        | some d =>
          simp only [Option.elim_some, Process.hits, hdone d rfl]
          exact nodup_nil
      · have howed : (left.elim Process.idle .purging).owed = total Deleter.owed left.toList := by
          cases left <;> rfl
        rw [howed]
        omega
    · cases hstep
  | purgeGiveBack =>
    simp only [Pen.step] at hstep
    split at hstep
    next bytes hpen =>
      cases hstep
      rw [hpen] at hcounter
      refine h.of_deletes .idle (Sublist.refl _) nodup_nil h.hits ?_ _
      simp only [Process.owed, Deleter.owed] at hcounter ⊢
      have hempty : (bytes : Int) = 0 → s.bytes = 0 :=
        fun hzero => hok (by rw [hpen, Int.natCast_eq_zero.1 hzero])
      rw [Counter.floored_of_le (by omega) (by omega) hempty]
      omega
    · cases hstep
  | prune =>
    cases hstep
    refine h.of_deletes s.pen (Sublist.refl _) h.purge (forall_mem_cons.2 ⟨?_, h.hits⟩) ?_ _
    · exact h.storedKeys.sublist ((purgeHits_sublist _ _ _).map _)
    · simpa only [total_cons, Deleter.owed, Nat.zero_add] using hcounter
  | release =>
    cases hstep
    refine h.of_deletes s.pen (Sublist.refl _) h.purge (forall_mem_cons.2 ⟨?_, h.hits⟩) ?_ _
    · exact h.storedKeys.sublist (filter_sublist.map _)
    · simpa only [total_cons, Deleter.owed, Nat.zero_add] using hcounter
  | commit i w =>
    simp only [Pen.step] at hstep
    split at hstep
    next hits hget =>
      obtain ⟨⟨stored, left⟩, hcommit⟩ : ∃ r, commitDeletes hits s.stored w = r := ⟨_, rfl⟩
      rw [hcommit] at hstep
      cases hstep
      have hhits := h.hits _ (mem_of_getElem? hget)
      obtain ⟨hsub, hdone, htotal⟩ := commitDeletes_spec h.storedKeys hhits (fun hw e he => by
        subst hw
        exact hok _ hget e he) hcommit
      have howed := total_eraseIdx Deleter.owed hget
      refine h.of_deletes s.pen hsub h.purge ?_ ?_ _
      · refine forall_mem_append.2 ⟨fun d hd => ?_, fun d hd => h.hits d (mem_of_mem_eraseIdx hd)⟩
        rw [hdone d (Option.mem_toList.1 hd)]
        exact nodup_nil
      · dsimp only [Deleter.owed] at howed ⊢
        rw [total_append]
        omega
    · cases hstep
  | released =>
    simp only [Pen.step] at hstep
    split at hstep
    next hget =>
      cases hstep
      have howed := total_eraseIdx Deleter.owed hget
      simp only [Deleter.owed] at howed
      refine h.of_deletes s.pen (Sublist.refl _) h.purge
        (fun d hd => h.hits d (mem_of_mem_eraseIdx hd)) ?_ _
      unfold Pen.released
      split_ifs with hzero
      · omega
      · rw [Counter.floored_of_le (by omega) (by omega) (by omega)]
        omega
    · cases hstep

theorem Sound.boot (hkeys : (stored.map Entry.key).Nodup)
    (hfits : total Entry.size stored ≤ maxBytes) : Sound maxBytes (boot stored) := by
  have hinUse : (Pen.boot stored).inUse = stored.map Entry.key := append_nil _
  refine ⟨hinUse ▸ hkeys,
    fun k hk => by rwa [hinUse] at hk, forall_mem_nil _, nodup_nil, (forall_mem_nil _), ?_, hfits⟩
  simp only [counted, Pen.boot, total_nil, Process.owed]
  omega

/-- **The pen's cap.** In an exclusive run from a pen whose counter was just recovered, the counter
    is never smaller than the bytes of what is stored, and these are never more than `max_bytes`. -/
theorem stored_le_of_exclusive {stored : List Entry} {es : List Event}
    (hkeys : (stored.map Entry.key).Nodup) (hfits : total Entry.size stored ≤ maxBytes)
    (hok : Run.Along (step maxBytes) Exclusive (boot stored) es)
    (hs : Run.exec (step maxBytes) (boot stored) es = some s) :
    (total Entry.size s.stored : Int) ≤ s.bytes ∧ total Entry.size s.stored ≤ maxBytes := by
  have hsound : Sound maxBytes s := invariant_along
    (fun _ _ _ hi hp hstep => hi.step hp hstep) (Sound.boot hkeys hfits) hok hs
  have hcounter := hsound.counter
  have hcap := hsound.cap
  simp only [counted] at hcounter
  constructor
  · omega
  · omega

/-! ## Two runs -/

instance Exclusive.decidable (s : State) (e : Event) : Decidable (Exclusive s e) := by
  unfold Exclusive
  split <;> infer_instance

/-- A put of sixty bytes, received at `at`. -/
def putSixty (receivedAt : Nat) : Event := .put ⟨receivedAt, receivedAt⟩ "github" none 59

/-- A filter that takes every entry. -/
def everything : Filter := ⟨none, none, none, none, none⟩

/-- One put is stored, another is refused, and after a purge of the first there is room again. -/
def purgedRoom : List Event :=
  [putSixty 1, .pend 0, .group [⟨1, 1⟩] .ok, .unpend, putSixty 2, .giveBack 0, .purge everything 10,
    .purgeCommit .ok, .purgeGiveBack, putSixty 3, .pend 0, .group [⟨3, 3⟩] .ok, .unpend]

theorem purgedRoom_bounded : ∃ s, Run.exec (step 100) (boot []) purgedRoom = some s ∧
    s.stored.map Entry.key = [⟨3, 3⟩] ∧ s.bytes = 60 ∧ (total Entry.size s.stored : Int) ≤ s.bytes ∧
    total Entry.size s.stored ≤ 100 := by
  have hok : Along (step 100) Exclusive (boot []) purgedRoom := by decide +kernel
  have hrun : ∃ s, exec (step 100) (boot []) purgedRoom = some s ∧
      (s.stored.map Entry.key = [⟨3, 3⟩] ∧ s.bytes = 60) := of_exec (by decide +kernel)
  obtain ⟨s, hs, hstored, hbytes⟩ := hrun
  have hempty : (([] : List Entry).map Entry.key).Nodup := nodup_nil
  exact ⟨s, hs, hstored, hbytes, stored_le_of_exclusive hempty (Nat.zero_le 100) hok hs⟩

/-- A purge and a prune find the same entry. Both delete it and give its bytes back, the second time
    those of an entry that is stored in the meantime. -/
def purgeAndPrune : List Event :=
  [putSixty 1, .pend 0, .group [⟨1, 1⟩] .ok, .unpend, .purge everything 10, .prune 1,
    .purgeCommit .ok,
    .purgeGiveBack, putSixty 2, .pend 0, .group [⟨2, 2⟩] .ok, .unpend, .commit 0 .ok, .released 0,
    putSixty 3, .pend 0, .group [⟨3, 3⟩] .ok, .unpend]

/-- The pen then holds twice what it counts, and more than its cap. -/
theorem purgeAndPrune_overfill : ∃ s, Run.exec (step 100) (boot []) purgeAndPrune = some s ∧
    s.bytes = 60 ∧ total Entry.size s.stored = 120 ∧
    ¬ ((total Entry.size s.stored : Int) ≤ s.bytes ∧ total Entry.size s.stored ≤ 100) :=
  of_exec (by decide +kernel)

end Ankusa.Quarantine.Pen
