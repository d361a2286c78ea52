import Ankusa.Lib.Cells
import Ankusa.Lib.Run

set_option autoImplicit false

/-! # The sources in Redis

`Ankusa.SourceStore.Redis`: Redis keeps the sources in a hash and a version that every script raises
with it, and every node serves a mirror. An update that leaves its secret out merges it from an
entry it read before its script, and stores the secret of that read, not the one Redis has by then
(`update_secret_iff`). A node records a version only once its mirror was read, or written, at that
version (`mirror_exact`). -/

namespace Ankusa.SourceStore

open KV Option List Run

/-- A field of a spec: an object, or another value. -/
inductive Field (V : Type) where
  | map (fields : String → Option V)
  | other (v : V)

/-- A source's configuration, by field. -/
abbrev Spec (V : Type) := String → Option (Field V)

variable {V S : Type} [DecidableEq V]

/-- The fields of the `verify` map. -/
def verify (spec : Spec V) : Option (String → Option V) :=
  match spec "verify" with
  | some (.map fields) => some fields
  | _ => none

/-- `text` tells the strings among the values. -/
def secret (text : V → Bool) (spec : Spec V) : Option V :=
  (verify spec).bind fun fields => (fields "secret").filter text

/-- The verify block of a spec keeps the type of the stored one. -/
def keepsType (spec stored : Spec V) : Bool :=
  (verify spec).any fun new => (verify stored).any fun old => new "type" = old "type"

/-- An update that omits its secret inherits the stored one. -/
def mergeSecret (text : V → Bool) (spec : Spec V) : Option (Spec V) → Spec V
  | none => spec
  | some stored =>
    match verify spec, secret text stored with
    | some new, some v =>
      if new "secret" = none ∧ keepsType spec stored then
        Function.update spec "verify" (some (.map (Function.update new "secret" (some v))))
      else spec
    | _, _ => spec

/-- The entry that is stored: without tenant and name, with the inherited secret. -/
def normalize (text : V → Bool) (spec : Spec V) (current : Option (Spec V)) : Spec V :=
  mergeSecret text (fun k => if k = "tenant" ∨ k = "name" then none else spec k) current

/-! ## Nodes -/

/-- What a node's decoder accepts, and which sources its configuration seeds. -/
structure Config (V S : Type) where
  text : V → Bool
  decode : Nat → String → Spec V → Option S
  seed : Nat → String → Bool

/-- Where a node is in a put, a delete or a load. -/
inductive Phase (V S : Type) where
  | idle
  /-- A put has read the entry it merges from. -/
  | merging (id : String) (spec : Spec V) (update : Bool) (current : Option (Spec V))
  /-- Redis took the write, as this version. -/
  | committing (id : String) (row : Option S) (version : Nat)
  | scanning (raw : Nat) (visited loaded : List String)
  | settling (raw : Nat) (loaded : List String)

/-- A node: its mirror, the version it has seen and what it is doing. -/
structure Node (V S : Type) where
  mirror : String → Option S
  version : Nat
  phase : Phase V S

/-- The Redis hash and its version, and the nodes. -/
structure State (V S : Type) where
  sources : Map String (Spec V)
  version : Nat
  nodes : Nat → Node V S

/-- An empty hash and nodes that have loaded nothing. -/
def State.start : State V S := ⟨∅, 0, fun _ => ⟨fun _ => none, 0, .idle⟩⟩

/-- What a node does next. A delayed, lost or repeated notification is a load that begins late,
    never, or again. -/
inductive Action (V : Type) where
  | put (id : String) (spec : Spec V) (update : Bool)
  | script
  | delete (id : String)
  | commit
  /-- Entries are sealed again under another key. -/
  | rewrap
  | load
  | page (ids : List String)
  /-- `last` says that the scan is not repeated. -/
  | reread (last : Bool)
  | settle
  | fail

/-- Node `n` is now `node`. -/
def State.set (s : State V S) (n : Nat) (node : Node V S) : State V S :=
  { s with nodes := Function.update s.nodes n node }

/-- Node `n` goes on to `phase`. -/
def State.turn (s : State V S) (n : Nat) (phase : Phase V S) : State V S :=
  s.set n { s.nodes n with phase }

/-- The source a node resolves an entry to. -/
def visible (cfg : Config V S) (sources : Map String (Spec V)) (n : Nat) (id : String) : Option S :=
  if cfg.seed n id then none else (sources.get id).bind (cfg.decode n id)

/-- The hash and the version move in one step. -/
def State.accept (s : State V S) (n : Nat) (id : String) (entry : Option (Spec V))
    (row : Option S) : State V S :=
  { s.turn n (.committing id row (s.version + 1)) with
    sources := s.sources.set id entry, version := s.version + 1 }

/-- One step of a node. -/
def step (cfg : Config V S) (s : State V S) : Nat × Action V → Option (State V S)
  | (n, action) =>
    match action, (s.nodes n).phase with
    | .put id spec update, .idle =>
      if cfg.seed n id = false then
        some (s.turn n (.merging id spec update (if update then s.sources.get id else none)))
      else none
    | .script, .merging id spec update current =>
      match cfg.decode n id (normalize cfg.text spec current) with
      | some source =>
        -- The script refuses a create of an entry that is there, and an update of one that is not.
        if (s.sources.get id).isSome = update then
          some (s.accept n id (some (normalize cfg.text spec current)) (some source))
        else some (s.turn n .idle)
      | none => some (s.turn n .idle)
    | .delete id, .idle =>
      if cfg.seed n id = false ∧ (s.sources.get id).isSome then
        some (s.accept n id none none) else none
    | .commit, .committing id row version =>
      if version = (s.nodes n).version + 1 then
        some (s.set n ⟨Function.update (s.nodes n).mirror id row, version, .idle⟩)
      else some (s.turn n .idle)
    | .rewrap, .idle => some { s with version := s.version + 1 }
    | .load, .idle => some (s.turn n (.scanning s.version [] []))
    | .page ids, .scanning raw visited loaded =>
      some (s.set n { s.nodes n with
        mirror := fun id =>
          if id ∈ ids then (visible cfg s.sources n id).or ((s.nodes n).mirror id)
            else (s.nodes n).mirror id
        phase := .scanning raw (ids ++ visited)
          (ids.filter (fun id => (visible cfg s.sources n id).isSome) ++ loaded) })
    | .reread last, .scanning raw visited loaded =>
      -- A scan returns every entry that was there throughout.
      if s.version = raw ∧ ¬ s.sources.keys ⊆ visited then none
      else some (s.turn n (if s.version = raw ∨ last then .settling raw loaded else .idle))
    | .settle, .settling raw loaded =>
      some (s.set n ⟨fun id => if id ∈ loaded then (s.nodes n).mirror id else none, raw, .idle⟩)
    | .fail, _ => some (s.turn n .idle)
    | _, _ => none

variable {cfg : Config V S} {s s' : State V S} {n : Nat}

/-! ## The secret an update keeps -/

variable {spec : Spec V}

theorem secret_normalize (text : V → Bool) (read : Option (Spec V))
    (homits : ∀ fields, verify spec = some fields → fields "secret" = none) :
    secret text (normalize text spec read) =
      read.bind fun stored => if keepsType spec stored then secret text stored else none := by
  unfold normalize
  generalize hdrop : (fun k => if k = "tenant" ∨ k = "name" then none else spec k) = spec'
  have hverify : verify spec' = verify spec := by rw [← hdrop]; rfl
  have hkeeps : ∀ stored, keepsType spec' stored = keepsType spec stored := fun _ => by
    unfold keepsType; rw [hverify]
  have hbare : secret text spec' = none := by
    unfold secret
    rw [hverify]
    cases hnew : verify spec with
    | none => rfl
    | some new => simp [homits new hnew]
  cases read with
  | none => exact hbare
  | some stored =>
    unfold mergeSecret
    dsimp only [bind_some]
    rw [hverify, hkeeps]
    split
    next new v hnew hsecret =>
      have htext : text v = true := by
        obtain ⟨fields, -, hv⟩ := bind_eq_some_iff.1 hsecret
        exact (filter_eq_some_iff.1 hv).2
      rw [hsecret]
      by_cases hk : keepsType spec stored = true
      · simp [homits new hnew, hk, secret, verify, htext]
      · simp [hk, hbare]
    next hnone =>
      rw [hbare]
      by_cases hk : keepsType spec stored = true
      · rw [if_pos hk]
        cases hnew : verify spec with
        | none => simp [keepsType, hnew] at hk
        | some new =>
          cases hsecret : secret text stored with
          | none => rfl
          | some v => exact absurd hsecret (hnone new v hnew)
      · rw [if_neg hk]

/-- What the update read is what Redis has to keep when its script runs. -/
def Current (text : V → Bool) (spec : Spec V) (read : Option (Spec V)) (now : Spec V) : Prop :=
  match read with
  | some stored =>
    if keepsType spec stored then secret text stored = secret text now else secret text now = none
  | none => secret text now = none

/-- An accepted update that leaves its secret out. -/
theorem update_secret_iff {id : String} {now : Spec V} {read : Option (Spec V)}
    (hphase : (s.nodes n).phase = .merging id spec true read) (hnow : s.sources.get id = some now)
    (homits : ∀ fields, verify spec = some fields → fields "secret" = none)
    (hstep : step cfg s (n, .script) = some s') (haccepted : s'.version = s.version + 1) :
    (s'.sources.get id).bind (secret cfg.text) = secret cfg.text now ↔
    Current cfg.text spec read now := by
  simp only [step, hphase, hnow, isSome_some] at hstep
  split at hstep
  · cases hstep
    simp only [State.accept, Map.get_set, if_true, bind_some,
      secret_normalize cfg.text read homits, Current]
    cases read with
    | none => exact eq_comm
    | some =>
      dsimp only [bind_some]
      split
      · rfl
      · exact eq_comm
  · cases hstep
    exact absurd haccepted (Nat.succ_ne_self _).symm

/-- Every decoder accepts, and node 0 is configured with a source of its own. -/
def shared : Config String Unit :=
  ⟨fun _ => true, fun _ _ _ => some (), fun n id => n = 0 ∧ id = "seeded"⟩

/-- A source with a secret, or without one. -/
def signed (key : Option String) : Spec String := fun k =>
  if k = "verify" then
    some (.map fun f => if f = "type" then some "hmac" else if f = "secret" then key else none)
  else none

/-- Node 1 creates a source. -/
def create (id : String) : List (Nat × Action String) :=
  [(1, .put id (signed (some "old")) false), (1, .script), (1, .commit)]

/-- Node 0 has read the source for an update that leaves the secret out, and node 1 rotates it. -/
def rotated : List (Nat × Action String) :=
  create "a" ++ [(0, .put "a" (signed none) true), (1, .put "a" (signed (some "new")) true),
    (1, .script)]

theorem rotated_undone : ∃ s s', Run.exec (step shared) .start rotated = some s ∧
    step shared s (0, .script) = some s' ∧ (s.sources.get "a").bind (secret shared.text) =
    some "new" ∧ (s'.sources.get "a").bind (secret shared.text) = some "old" := by
  obtain ⟨s, hs, hnew, hold⟩ := of_exec (f := step shared) (s := .start) (l := rotated)
    (P := fun s => (s.sources.get "a").bind (secret shared.text) = some "new" ∧
      ((step shared s (0, .script)).bind fun s' => (s'.sources.get "a").bind (secret shared.text)) =
      some "old")
    (by decide +kernel)
  obtain ⟨s', hs', hold⟩ := bind_eq_some_iff.1 hold
  exact ⟨s, s', hs, hs', hnew, hold⟩

/-- Nothing was written since the update read the source. -/
def reading : State String Unit :=
  State.turn ⟨Map.set ∅ "a" (some (signed (some "old"))), 1, State.start.nodes⟩ 0
    (.merging "a" (signed none) true (some (signed (some "old"))))

theorem reading_keeps : ∃ s', step shared reading (0, .script) = some s' ∧
    (s'.sources.get "a").bind (secret shared.text) = some "old" :=
  ⟨_, rfl, (update_secret_iff (n := 0) rfl (show _ = some (signed (some "old")) from rfl)
    (fun fields h => by cases h; rfl) rfl rfl).2 (by unfold Current; decide +kernel)⟩

/-! ## Versions and mirrors -/

section

omit [DecidableEq V]

variable {sources sources' : Map String (Spec V)} {version version' : Nat} {node : Node V S}
  {phase : Phase V S}

/-- What a node has read or written so far is exact, if nothing was written since. -/
def Phase.Exact (cfg : Config V S) (sources : Map String (Spec V)) (version n : Nat)
    (node : Node V S) : Phase V S → Prop
  | .idle => True
  | .merging id _ _ _ => cfg.seed n id = false
  | .committing id row v => v ≤ version ∧ (v = node.version + 1 → v = version →
    ∀ id', Function.update node.mirror id row id' = visible cfg sources n id')
  | .scanning raw visited loaded => raw ≤ version ∧ (raw = version →
    (∀ id ∈ loaded, node.mirror id = visible cfg sources n id) ∧
      ∀ id ∈ visited, (visible cfg sources n id).isSome → id ∈ loaded)
  | .settling raw loaded => raw ≤ version ∧ (raw = version →
    ∀ id, (if id ∈ loaded then node.mirror id else none) = visible cfg sources n id)

/-- A node at the hash's version mirrors it. -/
structure Node.Exact (cfg : Config V S) (sources : Map String (Spec V)) (version n : Nat)
    (node : Node V S) : Prop where
  le : node.version ≤ version
  mirror : node.version = version → ∀ id, node.mirror id = visible cfg sources n id
  phase : node.phase.Exact cfg sources version n node

/-- Nothing a node has is of a version that only comes with another's write. -/
theorem Node.Exact.moved (h : node.Exact cfg sources version n) (hlt : version < version') :
    node.Exact cfg sources' version' n := by
  obtain ⟨mirror, v, phase⟩ := node
  refine ⟨h.le.trans hlt.le, fun heq => absurd heq (h.le.trans_lt hlt).ne, ?_⟩
  have hphase := h.phase
  cases phase with
  | idle => trivial
  | merging => exact hphase
  | committing => exact ⟨hphase.1.trans hlt.le, fun _ heq => absurd heq (hphase.1.trans_lt hlt).ne⟩
  | scanning | settling =>
    exact ⟨hphase.1.trans hlt.le, fun heq => absurd heq (hphase.1.trans_lt hlt).ne⟩

theorem Node.Exact.turn (h : node.Exact cfg sources version n)
    (hphase : phase.Exact cfg sources version n { node with phase }) :
    Node.Exact cfg sources version n { node with phase } := ⟨h.le, h.mirror, hphase⟩

/-- Every node is exact. -/
def State.Exact (cfg : Config V S) (s : State V S) : Prop :=
  ∀ n, (s.nodes n).Exact cfg s.sources s.version n

theorem State.Exact.set (h : s.Exact cfg) (hnode : node.Exact cfg s.sources s.version n) :
    (s.set n node).Exact cfg := by
  intro m
  by_cases hm : m = n
  · subst hm
    simpa [State.set] using hnode
  · simpa [State.set, hm] using h m

theorem State.Exact.accept (h : s.Exact cfg) {id : String} {entry : Option (Spec V)}
    {row : Option S}
    (hrow : visible cfg (s.sources.set id entry) n id = row) :
    (s.accept n id entry row).Exact cfg := by
  intro m
  by_cases hm : m = n
  · subst hm
    have hmoved : (s.nodes m).Exact cfg (s.sources.set id entry) (s.version + 1) m :=
      (h m).moved (Nat.lt_succ_self _)
    have hexact : Node.Exact cfg (s.sources.set id entry) (s.version + 1) m
        { s.nodes m with phase := .committing id row (s.version + 1) } := by
      refine hmoved.turn ⟨le_rfl, fun hnext _ id' => ?_⟩
      by_cases hid : id' = id
      · rw [hid, Function.update_self, hrow]
      · rw [Function.update_of_ne hid]
        have hold := (h m).mirror (Nat.succ_injective hnext).symm id'
        simpa [visible, hid] using hold
    simpa [State.accept, State.turn, State.set] using hexact
  · have hmoved : (s.nodes m).Exact cfg (s.sources.set id entry) (s.version + 1) m :=
      (h m).moved (Nat.lt_succ_self _)
    simpa [State.accept, State.turn, State.set, hm] using hmoved

end

theorem State.Exact.step {ev : Nat × Action V} (h : s.Exact cfg) (hstep : step cfg s ev = some s') :
    s'.Exact cfg := by
  obtain ⟨n, action⟩ := ev
  have hexact := (h n).phase
  simp only [SourceStore.step] at hstep
  split at hstep
  next hphase =>
    obtain ⟨hseed, rfl⟩ := guarded hstep
    exact h.set ((h n).turn hseed)
  next id spec update current hphase =>
    rw [hphase] at hexact
    split at hstep
    next hdecode =>
      split at hstep
      · cases hstep
        refine h.accept ?_
        simp [visible, show cfg.seed n id = false from hexact, hdecode]
      · cases hstep
        exact h.set ((h n).turn trivial)
    · cases hstep
      exact h.set ((h n).turn trivial)
  next hphase =>
    obtain ⟨-, rfl⟩ := guarded hstep
    exact h.accept (by simp [visible])
  next hphase =>
    rw [hphase] at hexact
    split at hstep
    next hnext =>
      cases hstep
      exact h.set ⟨hexact.1, fun heq => hexact.2 hnext heq, trivial⟩
    · cases hstep
      exact h.set ((h n).turn trivial)
  · cases hstep
    exact fun m => (h m).moved (Nat.lt_succ_self _)
  · cases hstep
    exact h.set ((h n).turn ⟨le_rfl, fun _ => ⟨forall_mem_nil _, forall_mem_nil _⟩⟩)
  next ids raw visited loaded hphase =>
    cases hstep
    rw [hphase] at hexact
    -- An entry of the page is put over its own row.
    have hpage : ∀ id, (s.nodes n).mirror id = visible cfg s.sources n id →
        (if id ∈ ids then (visible cfg s.sources n id).or ((s.nodes n).mirror id)
          else (s.nodes n).mirror id) = visible cfg s.sources n id := fun id hid => by
      rw [hid, Option.or_self, ite_self]
    refine h.set ⟨(h n).le, fun heq id => hpage id ((h n).mirror heq id), hexact.1,
      fun heq => ⟨?_, ?_⟩⟩
    · refine forall_mem_append.2 ⟨fun id hid => ?_,
        fun id hid => hpage id ((hexact.2 heq).1 id hid)⟩
      obtain ⟨hmem, hsome⟩ := mem_filter.1 hid
      exact (if_pos hmem).trans (Option.or_of_isSome hsome)
    · exact forall_mem_append.2 ⟨fun id hid hsome => mem_append_left _ (mem_filter.2 ⟨hid, hsome⟩),
        fun id hid hsome => mem_append_right _ ((hexact.2 heq).2 id hid hsome)⟩
  next visited loaded hphase =>
    rw [hphase] at hexact
    split at hstep
    · cases hstep
    next hall =>
      cases hstep
      refine h.set ((h n).turn ?_)
      split
      · refine ⟨hexact.1, fun heq id => ?_⟩
        obtain ⟨hloaded, hvisited⟩ := hexact.2 heq
        split
        next hid => exact hloaded id hid
        next hid =>
          refine (Option.not_isSome_iff_eq_none.1 fun hsome => hid (hvisited id ?_ hsome)).symm
          have hsub : s.sources.keys ⊆ visited := not_not.1 fun hnot => hall ⟨heq.symm, hnot⟩
          refine hsub (AList.lookup_isSome.1 ?_)
          unfold visible at hsome
          split at hsome
          · cases hsome
          · exact Option.isSome_of_isSome_bind hsome
      · trivial
  next hphase =>
    rw [hphase] at hexact
    cases hstep
    exact h.set ⟨hexact.1, hexact.2, trivial⟩
  · cases hstep
    exact h.set ((h n).turn trivial)
  · cases hstep

/-- The mirror of a node that records Redis's version has the sources the node resolves, no more and
    no less. -/
theorem mirror_exact {es : List (Nat × Action V)}
    (hrun : Run.exec (step cfg) .start es = some s) (n : Nat)
    (hversion : (s.nodes n).version = s.version) (id : String) :
    (s.nodes n).mirror id = visible cfg s.sources n id := by
  have hstart : (State.start : State V S).Exact cfg := fun n =>
    ⟨le_rfl, fun _ id => by simp [State.start, visible], trivial⟩
  exact (exec_invariant (fun _ _ _ hs => hs.step) hstart hrun n).mirror hversion id

/-- Node 0 loads what node 1 has created. -/
def loaded (id : String) : List (Nat × Action String) :=
  create id ++ [(0, .load), (0, .page [id]), (0, .reread false), (0, .settle)]

theorem loaded_exact : ∃ s, Run.exec (step shared) .start (loaded "a") = some s ∧
    (s.nodes 0).version = s.version ∧ (s.nodes 0).mirror "a" = some () := by
  obtain ⟨s, hs, hversion, hvisible⟩ := of_exec (f := step shared) (s := .start) (l := loaded "a")
    (P := fun s => (s.nodes 0).version = s.version ∧ visible shared s.sources 0 "a" = some ())
    (by decide +kernel)
  exact ⟨s, hs, hversion, (mirror_exact hs 0 hversion "a").trans hvisible⟩

theorem seeded_skipped : ∃ s, Run.exec (step shared) .start (loaded "seeded") = some s ∧
    (s.nodes 0).version = s.version ∧
    (s.sources.get "seeded").bind (shared.decode 0 "seeded") = some () ∧
    (s.nodes 0).mirror "seeded" = none :=
  of_exec (by decide +kernel)

end Ankusa.SourceStore
