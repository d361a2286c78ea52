import Ankusa.Queue.Writer

set_option autoImplicit false

/-! # What the dedupe check decides

`dedupeCheck` goes through the items of a group in order. `CheckStep` says once what it can do with
one item, and everything else here is an induction over it: which places of the reply are commits
(`Marked`), that an item whose key is held by a live entry is answered with that entry's hook, and
that of the items of one key that nobody holds only the first commits and the others name it
(`Judged`), and what is fresh and what a duplicate names (`Picked`). -/

namespace Ankusa

open List

namespace Counters

variable {op : Op}

theorem mem_merges {κ : Type} {sums : List (κ × Int)} {toKey : κ → Key}
    (h : op ∈ merges sums toKey) : ∃ p ∈ sums, op = .merge (toKey p.1) p.2 := by
  simp only [merges, mem_map, mem_filter] at h
  obtain ⟨p, hp, rfl⟩ := h
  exact ⟨p, hp.1, rfl⟩

theorem mem_ops {ds : List Delta} (h : op ∈ ops ds) : ∃ o f d, op = .merge (.counter o f) d := by
  rcases mem_append.1 h with h | h
  all_goals
    obtain ⟨p, -, rfl⟩ := mem_merges h
    exact ⟨_, _, _, rfl⟩

end Counters

namespace Writer

/-- The stored value of `k` is an entry of hook `id` that has not expired at `now`. -/
def Holds (stored : Key → Option Val) (now : Ms) (k : Key) (id : String) : Prop :=
  ∃ time, stored k = some (.expiry time id) ∧ now < time

/-- What the check does with one item. -/
inductive CheckStep (stored : Key → Option Val) (now : Ms) (c : Check) (item : Item) : Check → Prop
  /-- The item does not dedupe. -/
  | plain (hkey : dedupe? item = none) : CheckStep stored now c item (c.take item [])
  /-- An earlier item of the group has the key, or had it checked. -/
  | again {key : String} {ttl : Ms} {original : String} (hkey : dedupe? item = some (key, ttl))
      (hseen : c.seen.lookup (uKey item.env key) = some original) :
      CheckStep stored now c item
        { c with results := .done (.duplicate { item.env with id := original }) :: c.results }
  /-- A live entry has the key. -/
  | held {key : String} {ttl : Ms} {original : String} (hkey : dedupe? item = some (key, ttl))
      (hseen : c.seen.lookup (uKey item.env key) = none)
      (hholds : Holds stored now (uKey item.env key) original) :
      CheckStep stored now c item
        { c with
          seen := (uKey item.env key, original) :: c.seen
          results := .done (.duplicate { item.env with id := original }) :: c.results }
  /-- Nobody has the key; `gone` deletes the place of an expired entry in the expiry order. -/
  | new {key : String} {ttl : Ms} (gone : List Op) (usage : Nat → Int)
      (deltas : List Counters.Delta)
      (hkey : dedupe? item = some (key, ttl)) (hseen : c.seen.lookup (uKey item.env key) = none)
      (hfree : ∀ id, ¬ Holds stored now (uKey item.env key) id)
      (hgone : ∀ op ∈ gone, ∃ time, op = .delete (expiryKey time item.env key)) :
      CheckStep stored now c item
        { c.take item (keyPuts item.env key ttl now ++ gone) with
          seen := (uKey item.env key, item.env.id) :: c.seen, usage, deltas }
  /-- Nobody has the key, and the index is full. -/
  | refused {key : String} {ttl : Ms} (hkey : dedupe? item = some (key, ttl))
      (hseen : c.seen.lookup (uKey item.env key) = none)
      (hfree : ∀ id, ¬ Holds stored now (uKey item.env key) id) :
      CheckStep stored now c item { c with results := .done (.error .dedupeQuota) :: c.results }

section

variable {stored : Key → Option Val} {now : Ms} {ords : List (String × Nat)} {enforce : Bool}
  {quota : Quota}

theorem checkItem_step (c : Check) (item : Item) :
    CheckStep stored now c item (checkItem stored now ords enforce quota c item) := by
  unfold checkItem
  split
  · next hkey => exact .plain hkey
  next key ttl hkey =>
    dsimp only
    split
    · next hseen => exact .again hkey hseen
    next hseen =>
      split
      next time original hstored =>
        split_ifs with hlive
        · exact .held hkey hseen ⟨time, hstored, hlive⟩
        refine .new [.delete (expiryKey time item.env key)] c.usage c.deltas hkey hseen ?_ ?_
        · rintro id ⟨time', hstored', hlive'⟩
          rw [hstored] at hstored'
          cases hstored'
          exact hlive hlive'
        · intro op hop
          exact ⟨time, mem_singleton.1 hop⟩
      next hne hstored =>
        have hfree : ∀ id, ¬ Holds stored now (uKey item.env key) id := by
          rintro id ⟨time, hstored', -⟩
          rw [hstored] at hstored'
          exact hne time id (Option.some.inj hstored')
        exact .new [] c.usage c.deltas hkey hseen hfree (forall_mem_nil _)
      next hstored =>
        have hfree : ∀ id, ¬ Holds stored now (uKey item.env key) id := by
          rintro id ⟨time, hstored', -⟩
          rw [hstored] at hstored'
          cases hstored'
        split_ifs with hfull
        · exact .refused hkey hseen hfree
        · exact .new [] _ _ hkey hseen hfree (forall_mem_nil _)

/-- What every step of the check keeps holds at its end; the items so far stand newest first. -/
theorem foldl_checkItem {I : List Item → Check → Prop}
    (hstep : ∀ rev c item c', I rev c → CheckStep stored now c item c' → I (item :: rev) c')
    {c : Check} (h : I [] c) (items : List Item) :
    I items.reverse (items.foldl (checkItem stored now ords enforce quota) c) := by
  have hfold : ∀ (rev : List Item) (c : Check), I rev c →
      I (items.reverse ++ rev) (items.foldl (checkItem stored now ords enforce quota) c) := by
    induction items with
    | nil => exact fun _ _ h => h
    | cons item items ih =>
      intro rev c h
      rw [reverse_cons, append_assoc]
      exact ih _ _ (hstep rev c item _ h (checkItem_step c item))
  simpa using hfold [] c h

/-- The check of a group, with what its steps keep. -/
theorem dedupeCheck_inv {I : List Item → Check → Prop} (usage : Nat → Int)
    (hstep : ∀ rev c item c', I rev c → CheckStep stored now c item c' → I (item :: rev) c')
    (h : I [] ⟨[], [], [], [], usage, []⟩) (items : List Item) :
    ∃ c, dedupeCheck stored usage now ords enforce quota items =
      ⟨c.results.reverse, c.fresh.reverse, Counters.ops c.deltas ++ c.ops⟩ ∧ I items.reverse c :=
  ⟨_, rfl, foldl_checkItem hstep h items⟩

/-! ## The places of the reply -/

/-- One place of the reply is marked for every fresh item, and no other place is a commit. -/
def Marked (results : List Mark) (fresh : List Item) : Prop :=
  (results.filter fun m => m matches .fresh _).length = fresh.length ∧
    ∀ r, .done r ∈ results → ∀ env q, r ≠ .committed env q

variable {results marks : List Mark} {op : Op} {key id id' : String} {first : Nat}
  {tag : Item → Option Reason}

theorem Marked.fresh {fresh : List Item} (h : Marked results fresh)
    (item : Item) : Marked (.fresh item :: results) (item :: fresh) :=
  ⟨by simp [h.1], fun r hr => h.2 r (by simpa using hr)⟩

theorem Marked.done {fresh : List Item} (h : Marked results fresh) {r : Result}
    (hr : ∀ env q, r ≠ .committed env q) : Marked (.done r :: results) fresh := by
  refine ⟨by simpa using h.1, fun r' hr' => ?_⟩
  rcases mem_cons.1 hr' with heq | hr'
  · cases heq
    exact hr
  · exact h.2 r' hr'

theorem dedupeCheck_marked (stored : Key → Option Val) (usage : Nat → Int) (now : Ms)
    (ords : List (String × Nat)) (enforce : Bool) (quota : Quota) (items : List Item) :
    Marked (dedupeCheck stored usage now ords enforce quota items).results
      (dedupeCheck stored usage now ords enforce quota items).fresh := by
  obtain ⟨c, heq, hlen, hdone⟩ := dedupeCheck_inv (I := fun _ c => Marked c.results c.fresh) usage
    (fun rev c item c' h hstep => by
      cases hstep with
      | plain | new => exact h.fresh item
      | again | held | refused => exact h.done nofun) ⟨rfl, by simp⟩ items
  rw [heq]
  exact ⟨by simpa [filter_reverse] using hlen, fun r hr => hdone r (mem_reverse.1 hr)⟩

/-! ## The operations of the check -/

/-- The operation puts a key or its place in the expiry order, with the other one among `ops`, or it
    deletes such a place. -/
def IndexOp (now : Ms) (ops : List Op) (op : Op) : Prop :=
  (∃ env key ttl, op ∈ keyPuts env key ttl now ∧ keyPuts env key ttl now ⊆ ops) ∨
    ∃ time env key, op = .delete (expiryKey time env key)

variable {ops : List Op}

theorem IndexOp.mono {ops' : List Op} (h : IndexOp now ops op) (hsub : ops ⊆ ops') :
    IndexOp now ops' op := by
  rcases h with ⟨env, key, ttl, hmem, hputs⟩ | hdelete
  · exact .inl ⟨env, key, ttl, hmem, List.Subset.trans hputs hsub⟩
  · exact .inr hdelete

/-- The dedupe keys a batch puts. -/
def uKeys (ops : List Op) : List Key :=
  ops.filterMap fun
    | .put (.dedupe tenant source key) (.expiry _ _) => some (.dedupe tenant source key)
    | _ => none

/-- A dedupe key the check touches is one it puts. -/
theorem IndexOp.mem_uKeys (h : IndexOp now ops op) (hop : op ∈ ops)
    {tenant source : String} (hkey : op.key = .dedupe tenant source key) : op.key ∈ uKeys ops := by
  rcases h with ⟨env, key', ttl, hmem, -⟩ | ⟨time, env, key', rfl⟩
  · rcases mem_pair.1 hmem with rfl | rfl
    · exact mem_filterMap.2 ⟨_, hop, rfl⟩
    · cases hkey
  · cases hkey

/-- What the check has found: `rev` are the items so far, newest first, as their results are. -/
structure Judged (stored : Key → Option Val) (now : Ms) (rev : List Item) (c : Check) : Prop where
  length : c.results.length = rev.length
  /-- An item whose key a live entry holds is a duplicate of that entry's hook. -/
  held : ∀ a ∈ rev.zip c.results, ∀ k id, dedupeKey a.1 = some k → Holds stored now k id →
    a.2 = .done (.duplicate { a.1.env with id })
  seen : ∀ k id original, Holds stored now k id → c.seen.lookup k = some original → original = id
  fresh : ∀ a ∈ rev.zip c.results, ∀ i k, a.2 = .fresh i → dedupeKey a.1 = some k →
    c.seen.lookup k = some a.1.env.id
  /-- A later item of a fresh item's key is a duplicate of it. -/
  order : (rev.zip c.results).Pairwise fun b a => ∀ i k, a.2 = .fresh i → dedupeKey a.1 = some k →
    dedupeKey b.1 = some k → b.2 = .done (.duplicate { b.1.env with id := a.1.env.id })
  puts : ∀ k ∈ uKeys c.ops, c.seen.lookup k ≠ none ∧ ∀ id, ¬ Holds stored now k id
  nodup : (uKeys c.ops).Nodup
  index : ∀ op ∈ c.ops, IndexOp now c.ops op

variable {k : Key}

theorem Holds.unique (h : Holds stored now k id) (h' : Holds stored now k id') : id = id' := by
  obtain ⟨time, hstored, -⟩ := h
  obtain ⟨time', hstored', -⟩ := h'
  rw [hstored] at hstored'
  cases hstored'
  rfl

theorem dedupeKey_eq {item : Item} {ttl : Ms} (h : dedupe? item = some (key, ttl)) :
    dedupeKey item = some (uKey item.env key) := by
  rw [dedupeKey, h]
  rfl

theorem uKeys_append (ops ops' : List Op) : uKeys (ops ++ ops') = uKeys ops ++ uKeys ops' :=
  filterMap_append

theorem uKeys_delete (h : ∀ op ∈ ops, op.creates = false) : uKeys ops = [] := by
  refine filterMap_eq_nil_iff.2 fun op hop => ?_
  have hdelete := h op hop
  cases op with
  | delete => rfl
  | put | merge => cases hdelete

/-- A key that is looked up stays when another is added in front. -/
theorem lookup_cons_of_none {seen : List (Key × String)} {k' : Key}
    (hnone : seen.lookup k' = none) (h : seen.lookup k = some id) :
    ((k', id') :: seen).lookup k = some id := by
  have hne : k ≠ k' := by
    rintro rfl
    rw [hnone] at h
    cases h
  rw [lookup_cons, beq_false_of_ne hne]
  exact h

variable {rev : List Item} {c c' : Check} {item : Item}

/-- One more item and its mark: what the mark says must fit the items before. -/
theorem Judged.push (h : Judged stored now rev c) {m : Mark}
    (hresults : c'.results = m :: c.results)
    (hmono : ∀ k id, c.seen.lookup k = some id → c'.seen.lookup k = some id)
    (hkey : ∀ k, dedupeKey item = some k →
      (∀ id, Holds stored now k id → m = .done (.duplicate { item.env with id })) ∧
      (∀ i, m = .fresh i → c'.seen.lookup k = some item.env.id) ∧
      ∀ original, c.seen.lookup k = some original →
      m = .done (.duplicate { item.env with id := original }))
    (hseen : ∀ k id original, Holds stored now k id → c'.seen.lookup k = some original →
      original = id)
    (hputs : ∀ k ∈ uKeys c'.ops, c'.seen.lookup k ≠ none ∧ ∀ id, ¬ Holds stored now k id)
    (hnodup : (uKeys c'.ops).Nodup) (hindex : ∀ op ∈ c'.ops, IndexOp now c'.ops op) :
    Judged stored now (item :: rev) c' where
  length := by rw [hresults, length_cons, length_cons, h.length]
  held := by
    rw [hresults, zip_cons_cons]
    exact forall_mem_cons.2 ⟨fun k id hk => (hkey k hk).1 id, h.held⟩
  seen := hseen
  fresh := by
    rw [hresults, zip_cons_cons]
    exact forall_mem_cons.2 ⟨fun i k hi hk => (hkey k hk).2.1 i hi,
      fun a ha i k hi hk => hmono k _ (h.fresh a ha i k hi hk)⟩
  order := by
    rw [hresults, zip_cons_cons, pairwise_cons]
    refine ⟨fun a ha i k hi hk hk' => ?_, h.order⟩
    exact (hkey k hk').2.2 _ (h.fresh a ha i k hi hk)
  puts := hputs
  nodup := hnodup
  index := hindex

theorem judged_nil (usage : Nat → Int) : Judged stored now [] ⟨[], [], [], [], usage, []⟩ where
  length := rfl
  held := forall_mem_nil _
  seen := fun _ _ _ _ hs => by cases hs
  fresh := forall_mem_nil _
  order := .nil
  puts := forall_mem_nil _
  nodup := .nil
  index := forall_mem_nil _

theorem Judged.seen_cons (h : Judged stored now rev c)
    (hid : ∀ id, Holds stored now k id → id' = id)
    (k' : Key) (id original : String) (hholds : Holds stored now k' id)
    (hs : ((k, id') :: c.seen).lookup k' = some original) : original = id := by
  rw [lookup_cons] at hs
  split at hs
  next heq =>
    obtain rfl := beq_iff_eq.1 heq
    cases hs
    exact hid id hholds
  · exact h.seen k' id original hholds hs

theorem Judged.puts_cons (h : Judged stored now rev c) (hnone : c.seen.lookup k = none) (k' : Key)
    (hk : k' ∈ uKeys c.ops) :
    ((k, id) :: c.seen).lookup k' ≠ none ∧ ∀ id, ¬ Holds stored now k' id := by
  obtain ⟨hsome, hfree⟩ := h.puts k' hk
  obtain ⟨id, hid⟩ := Option.ne_none_iff_exists'.1 hsome
  exact ⟨by rw [lookup_cons_of_none hnone hid]; nofun, hfree⟩

theorem Judged.step (h : Judged stored now rev c) (hstep : CheckStep stored now c item c') :
    Judged stored now (item :: rev) c' := by
  cases hstep with
  | plain hkey =>
    refine h.push rfl (fun _ _ hs => hs) (fun k hk => ?_) h.seen h.puts h.nodup h.index
    rw [dedupeKey, hkey] at hk
    cases hk
  | again hkey hseen =>
    refine h.push rfl (fun _ _ hs => hs) (fun k hk => ?_) h.seen h.puts h.nodup h.index
    rw [dedupeKey_eq hkey] at hk
    cases hk
    refine ⟨fun id hholds => ?_, nofun, fun original hs => ?_⟩
    · rw [h.seen _ _ _ hholds hseen]
    · rw [hseen] at hs
      cases hs
      rfl
  | held hkey hseen hholds =>
    refine h.push rfl (fun _ _ => lookup_cons_of_none hseen) (fun k hk => ?_)
      (h.seen_cons fun id hid => hholds.unique hid) (h.puts_cons hseen) h.nodup h.index
    rw [dedupeKey_eq hkey] at hk
    cases hk
    refine ⟨fun id hholds' => ?_, nofun, fun original hs => ?_⟩
    · rw [hholds.unique hholds']
    · rw [hseen] at hs
      cases hs
  | @new key ttl gone usage deltas hkey hseen hfree hgone =>
    have hops : uKeys (keyPuts item.env key ttl now ++ gone ++ c.ops) =
        uKey item.env key :: uKeys c.ops := by
      have hnil : uKeys gone = [] := by
        refine uKeys_delete fun op hop => ?_
        obtain ⟨time, rfl⟩ := hgone op hop
        rfl
      rw [uKeys_append, uKeys_append, hnil, append_nil]
      rfl
    refine h.push rfl (fun _ _ => lookup_cons_of_none hseen) (fun k hk => ?_)
      (h.seen_cons fun id hid => absurd hid (hfree id)) ?_ ?_ ?_
    · rw [dedupeKey_eq hkey] at hk
      cases hk
      refine ⟨fun id hholds => absurd hholds (hfree id), fun _ _ => lookup_cons_self,
        fun original hs => ?_⟩
      rw [hseen] at hs
      cases hs
    · show ∀ k ∈ uKeys (keyPuts item.env key ttl now ++ gone ++ c.ops), _
      rw [hops]
      exact forall_mem_cons.2 ⟨⟨by rw [lookup_cons_self]; nofun, hfree⟩, h.puts_cons hseen⟩
    · show (uKeys (keyPuts item.env key ttl now ++ gone ++ c.ops)).Nodup
      rw [hops, nodup_cons]
      exact ⟨fun hk => (h.puts _ hk).1 hseen, h.nodup⟩
    · refine forall_mem_append.2 ⟨forall_mem_append.2 ⟨fun op hop => ?_, fun op hop => ?_⟩,
        fun op hop => (h.index op hop).mono (subset_append_right _ _)⟩
      · exact .inl ⟨item.env, key, ttl, hop,
          fun op hop => mem_append_left _ (mem_append_left _ hop)⟩
      · obtain ⟨time, rfl⟩ := hgone op hop
        exact .inr ⟨time, item.env, key, rfl⟩
  | refused hkey hseen hfree =>
    refine h.push rfl (fun _ _ hs => hs) (fun k hk => ?_) h.seen h.puts h.nodup h.index
    rw [dedupeKey_eq hkey] at hk
    cases hk
    refine ⟨fun id hholds => absurd hholds (hfree id), nofun, fun original hs => ?_⟩
    rw [hseen] at hs
    cases hs

/-- What the check of a group has decided. -/
structure Verdicts (stored : Key → Option Val) (now : Ms) (items : List Item) (checked : Checked) :
    Prop where
  length : checked.results.length = items.length
  held : ∀ a ∈ items.zip checked.results, ∀ k id, dedupeKey a.1 = some k → Holds stored now k id →
    a.2 = .done (.duplicate { a.1.env with id })
  order : (items.zip checked.results).Pairwise fun a b => ∀ i k, a.2 = .fresh i →
    dedupeKey a.1 = some k → dedupeKey b.1 = some k →
    b.2 = .done (.duplicate { b.1.env with id := a.1.env.id })
  marked : Marked checked.results checked.fresh
  free : ∀ k ∈ uKeys checked.dedupeOps, ∀ id, ¬ Holds stored now k id
  nodup : (uKeys checked.dedupeOps).Nodup
  index : ∀ op ∈ checked.dedupeOps, IndexOp now checked.dedupeOps op ∨
    ∃ ord field d, op = .merge (.counter ord field) d

theorem dedupeCheck_verdicts (usage : Nat → Int) (items : List Item) :
    Verdicts stored now items (dedupeCheck stored usage now ords enforce quota items) := by
  have hmarked := dedupeCheck_marked stored usage now ords enforce quota items
  obtain ⟨c, heq, hjudged⟩ :=
    dedupeCheck_inv usage (fun _ _ _ _ h hstep => h.step hstep) (judged_nil usage) items
  rw [heq] at hmarked ⊢
  have hzip : items.zip c.results.reverse = (items.reverse.zip c.results).reverse := by
    have := reverse_zipWith (f := Prod.mk) hjudged.length.symm
    rw [reverse_reverse] at this
    exact this.symm
  have hkeys : uKeys (Counters.ops c.deltas ++ c.ops) = uKeys c.ops := by
    have hnil : uKeys (Counters.ops c.deltas) = [] := by
      refine filterMap_eq_nil_iff.2 fun op hop => ?_
      obtain ⟨ord, field, d, rfl⟩ := Counters.mem_ops hop
      rfl
    rw [uKeys_append, hnil, nil_append]
  refine ⟨?_, ?_, ?_, hmarked, ?_, ?_, ?_⟩
  · simpa using hjudged.length
  · rw [hzip]
    intro a ha
    exact hjudged.held a (mem_reverse.1 ha)
  · rw [hzip, pairwise_reverse]
    exact hjudged.order
  · rw [hkeys]
    exact fun k hk => (hjudged.puts k hk).2
  · rw [hkeys]
    exact hjudged.nodup
  · exact forall_mem_append.2 ⟨fun op hop => .inr (Counters.mem_ops hop),
      fun op hop => .inl ((hjudged.index op hop).mono (subset_append_right _ _))⟩

/-- A fresh item that dedupes has an entry under its key. -/
theorem dedupeCheck_recorded (usage : Nat → Int) (items : List Item)
    (hmem : item ∈ (dedupeCheck stored usage now ords enforce quota items).fresh)
    (hk : dedupeKey item = some k) : ∃ time, .put k (.expiry time item.env.id) ∈
      (dedupeCheck stored usage now ords enforce quota items).dedupeOps := by
  obtain ⟨c, heq, hfold⟩ :=
    dedupeCheck_inv (I := fun _ c => ∀ item ∈ c.fresh, ∀ k, dedupeKey item = some k →
      ∃ time, .put k (.expiry time item.env.id) ∈ c.ops) usage (fun rev c item c' h hstep => by
    cases hstep with
    | plain hkey =>
      refine forall_mem_cons.2 ⟨fun k hk => ?_, h⟩
      rw [dedupeKey, hkey] at hk
      cases hk
    | new gone usage deltas hkey =>
      intro i hi k hk
      rcases mem_cons.1 hi with rfl | hi
      · rw [dedupeKey_eq hkey] at hk
        cases hk
        exact ⟨_, mem_append_left _ (mem_append_left _ mem_cons_self)⟩
      · obtain ⟨time, hput⟩ := h i hi k hk
        exact ⟨time, mem_append_right _ hput⟩
    | again | held | refused => exact h) (forall_mem_nil _) items
  rw [heq] at hmem ⊢
  obtain ⟨time, hput⟩ := hfold item (mem_reverse.1 hmem) k hk
  exact ⟨time, mem_append_right _ hput⟩

/-! ## The reply of a checked group -/

/-- The result that stands in a mark's place of the reply. -/
def Settles : Mark → Result → Prop
  | .fresh item, r => ∃ seq, r = .committed item.env seq
  | .done result, r => r = result

theorem length_reassemble (marks : List Mark) (first : Nat) :
    (reassemble marks first).length = marks.length := by
  fun_induction reassemble marks first with
  | case1 => rfl
  | case2 seq item ms ih | case3 seq r ms ih => rw [length_cons, length_cons, ih]

theorem reassemble_cons (m : Mark) (marks : List Mark) (first : Nat) :
    ∃ r next, reassemble (m :: marks) first = r :: reassemble marks next ∧ Settles m r := by
  cases m with
  | fresh => exact ⟨_, first + 1, rfl, first, rfl⟩
  | done => exact ⟨_, first, rfl, rfl⟩

variable {items : List Item}

theorem mem_zip_reassemble {a : Item × Result}
    (h : a ∈ items.zip (reassemble marks first)) :
    ∃ m, (a.1, m) ∈ items.zip marks ∧ Settles m a.2 := by
  induction marks generalizing items first with
  | nil =>
    rw [reassemble, zip_nil_right] at h
    cases h
  | cons m ms ih =>
    cases items with
    | nil => cases h
    | cons =>
      obtain ⟨r, next, heq, hsettles⟩ := reassemble_cons m ms first
      rw [heq, zip_cons_cons] at h
      rw [zip_cons_cons]
      rcases mem_cons.1 h with rfl | h
      · exact ⟨m, mem_cons_self, hsettles⟩
      · obtain ⟨m', hm', hs'⟩ := ih h
        exact ⟨m', mem_cons_of_mem _ hm', hs'⟩

/-- What holds of every two marks holds of their results. -/
theorem pairwise_reassemble {R : Item × Mark → Item × Mark → Prop}
    {R' : Item × Result → Item × Result → Prop} (h : (items.zip marks).Pairwise R)
    (himp : ∀ i m r, (i, m) ∈ items.zip marks → Settles m r → ∀ i' m' r', Settles m' r' →
      R (i, m) (i', m') → R' (i, r) (i', r')) :
        (items.zip (reassemble marks first)).Pairwise R' := by
  induction marks generalizing items first with
  | nil =>
    rw [reassemble, zip_nil_right]
    exact .nil
  | cons m ms ih =>
    cases items with
    | nil => exact .nil
    | cons item =>
      obtain ⟨r, next, heq, hsettles⟩ := reassemble_cons m ms first
      rw [zip_cons_cons, pairwise_cons] at h
      rw [heq, zip_cons_cons, pairwise_cons]
      refine ⟨fun b hb => ?_, ih h.2 fun i m r hmem => himp i m r (mem_cons_of_mem _ hmem)⟩
      obtain ⟨m', hm', hs'⟩ := mem_zip_reassemble hb
      exact himp item m r mem_cons_self hsettles b.1 m' b.2 hs' (h.1 _ hm')

/-- The admitted items have the places of the reply the check gave them. -/
theorem filter_zip_withRefused {rs : List Result}
    (h : rs.length = (items.filter fun i => (tag i).isNone).length) :
    (items.zip (withRefused (items.map tag) rs)).filter (fun a => (tag a.1).isNone) =
      (items.filter fun i => (tag i).isNone).zip rs ∧
      (withRefused (items.map tag) rs).length = items.length := by
  induction items generalizing rs with
  | nil => exact ⟨rfl, rfl⟩
  | cons item items ih =>
    rw [map_cons]
    cases htag : tag item with
    | some =>
      rw [filter_cons_of_neg (by simp [htag])] at h
      obtain ⟨hzip, hlen⟩ := ih h
      rw [withRefused, zip_cons_cons, filter_cons_of_neg (by simp [htag]),
        filter_cons_of_neg (by simp [htag]), length_cons, length_cons, hlen]
      exact ⟨hzip, rfl⟩
    | none =>
      rw [filter_cons_of_pos (by simp [htag]), length_cons] at h
      cases rs with
      | nil => cases h
      | cons =>
        obtain ⟨hzip, hlen⟩ := ih (Nat.succ.inj h)
        rw [withRefused, zip_cons_cons, filter_cons_of_pos (by simp [htag]),
          filter_cons_of_pos (by simp [htag]), zip_cons_cons, length_cons,
          length_cons, hlen, hzip]
        exact ⟨rfl, rfl⟩

/-- **The reply of a group**: one result for each item; an admitted item whose key a live entry
    holds is a duplicate of that entry's hook, and one that has the key of an item committed before
    it is a duplicate of that item. -/
structure Answered (stored : Key → Option Val) (now : Ms) (tag : Item → Option Reason)
    (items : List Item) (results : List Result) : Prop where
  length : results.length = items.length
  held : ∀ a ∈ items.zip results, tag a.1 = none → ∀ k id, dedupeKey a.1 = some k →
    Holds stored now k id → a.2 = .duplicate { a.1.env with id }
  order : (items.zip results).Pairwise fun a b => tag a.1 = none → tag b.1 = none → ∀ k env seq,
    dedupeKey a.1 = some k → dedupeKey b.1 = some k → a.2 = .committed env seq →
    b.2 = .duplicate { b.1.env with id := a.1.env.id }

theorem Verdicts.answered {checked : Checked}
    (h : Verdicts stored now (items.filter fun i => (tag i).isNone) checked) (first : Nat) :
    Answered stored now tag items
      (withRefused (items.map tag) (reassemble checked.results first)) := by
  have hlength : (reassemble checked.results first).length =
      (items.filter fun i => (tag i).isNone).length := by rw [length_reassemble, h.length]
  obtain ⟨hzip, hlen⟩ := filter_zip_withRefused hlength
  refine ⟨hlen, ?_, ?_⟩
  · intro a ha htag k id hk hholds
    have hmem : a ∈ (items.filter fun i => (tag i).isNone).zip
        (reassemble checked.results first) := by
      rw [← hzip]
      exact mem_filter.2 ⟨ha, by simp [htag]⟩
    obtain ⟨m, hm, hsettles⟩ := mem_zip_reassemble hmem
    obtain rfl : m = .done (.duplicate { a.1.env with id }) := h.held _ hm k id hk hholds
    exact hsettles
  · have hpairs : ((items.filter fun i => (tag i).isNone).zip
        (reassemble checked.results first)).Pairwise fun a b => ∀ k env seq,
          dedupeKey a.1 = some k → dedupeKey b.1 = some k → a.2 = .committed env seq →
          b.2 = .duplicate { b.1.env with id := a.1.env.id } := by
      refine pairwise_reassemble h.order fun i m r hmem hsettles i' m' r' hsettles' hR => ?_
      intro k env seq hk hk' hr
      cases m with
      | fresh item =>
        obtain rfl : m' = .done (.duplicate { i'.env with id := i.env.id }) := hR item k rfl hk hk'
        exact hsettles'
      | done result =>
        exact absurd (hsettles.symm.trans hr) (h.marked.2 result (of_mem_zip hmem).2 env seq)
    rw [← hzip, pairwise_filter] at hpairs
    refine hpairs.imp fun {a b} hab ha hb => hab (by simp [ha]) (by simp [hb])

/-! ## What a check picks -/

open KV

/-- What the check has picked: `rev` are the items so far, newest first, as the fresh ones are. A
    duplicate names a fresh item, or the hook a live entry of its key names. -/
structure Picked (stored : Key → Option Val) (now : Ms) (rev : List Item) (c : Check) : Prop where
  fresh : c.fresh.Sublist rev
  marks : ∀ i, .fresh i ∈ c.results → i ∈ c.fresh
  duplicates : ∀ env, .done (.duplicate env) ∈ c.results → (∃ i ∈ c.fresh, i.env.id = env.id) ∨
    ∃ i ∈ rev, ∃ k, dedupeKey i = some k ∧ Holds stored now k env.id
  seen : ∀ k original, c.seen.lookup k = some original → (∃ i ∈ c.fresh, i.env.id = original) ∨
    Holds stored now k original
  keyed : ∀ i ∈ c.fresh, ∀ k, dedupeKey i = some k → c.seen.lookup k ≠ none
  apart : c.fresh.Pairwise fun i j => ∀ k, dedupeKey i = some k → dedupeKey j ≠ some k
  puts : ∀ k time id, .put k (.expiry time id) ∈ c.ops →
    ∃ i ∈ c.fresh, dedupeKey i = some k ∧ i.env.id = id

section

variable (h : Picked stored now rev c)
include h

variable {seen : List (Key × String)}

/-- A duplicate of what was seen or is stored. -/
theorem Picked.duplicate {k : Key} {original : String} (hk : dedupeKey item = some k)
    (hname : (∃ i ∈ c.fresh, i.env.id = original) ∨ Holds stored now k original)
    (hseen : ∀ k original, seen.lookup k = some original → (∃ i ∈ c.fresh, i.env.id = original) ∨
      Holds stored now k original) (hkeep : ∀ k, c.seen.lookup k ≠ none → seen.lookup k ≠ none) :
    Picked stored now (item :: rev)
      { c with seen, results := .done (.duplicate { item.env with id := original }) ::
        c.results } where
  fresh := h.fresh.cons item
  marks i hi := h.marks i (by simpa using hi)
  duplicates env henv := by
    rcases mem_cons.1 henv with heq | henv
    · obtain rfl : env = { item.env with id := original } := by simpa using heq
      exact hname.imp id fun hh => ⟨item, mem_cons_self, k, hk, hh⟩
    · exact (h.duplicates env henv).imp id fun ⟨i, hi, hrest⟩ => ⟨i, mem_cons_of_mem _ hi, hrest⟩
  seen := hseen
  keyed i hi k' hk' := hkeep k' (h.keyed i hi k' hk')
  apart := h.apart
  puts := h.puts

/-- A fresh item: its key is nobody's. -/
theorem Picked.take {newOps : List Op}
    {usage : Nat → Int} {deltas : List Counters.Delta}
    (hfree : ∀ k, dedupeKey item = some k → c.seen.lookup k = none)
    (hseen : ∀ k original, seen.lookup k = some original →
      c.seen.lookup k = some original ∨ original = item.env.id)
    (hkeep : ∀ k, c.seen.lookup k ≠ none ∨ dedupeKey item = some k → seen.lookup k ≠ none)
    (hputs : ∀ k time id, .put k (.expiry time id) ∈ newOps →
      dedupeKey item = some k ∧ item.env.id = id) :
    Picked stored now (item :: rev) { c.take item newOps with seen, usage, deltas } where
  fresh := h.fresh.cons_cons item
  marks i hi := by
    rcases mem_cons.1 hi with heq | hi
    · obtain rfl : i = item := by simpa using heq
      exact mem_cons_self
    · exact mem_cons_of_mem _ (h.marks i hi)
  duplicates env henv := by
    rcases h.duplicates env (by simpa [Check.take] using henv) with ⟨i, hi, hid⟩ | ⟨i, hi, hrest⟩
    · exact .inl ⟨i, mem_cons_of_mem _ hi, hid⟩
    · exact .inr ⟨i, mem_cons_of_mem _ hi, hrest⟩
  seen k original hs := by
    rcases hseen k original hs with hold | rfl
    · exact (h.seen k original hold).imp (fun ⟨i, hi, hid⟩ => ⟨i, mem_cons_of_mem _ hi, hid⟩) id
    · exact .inl ⟨item, mem_cons_self, rfl⟩
  keyed i hi k hk := by
    rcases mem_cons.1 hi with rfl | hi
    · exact hkeep k (.inr hk)
    · exact hkeep k (.inl (h.keyed i hi k hk))
  apart := by
    refine pairwise_cons.2 ⟨fun j hj k hk hk' => ?_, h.apart⟩
    exact h.keyed j hj k hk' (hfree k hk)
  puts k time id hput := by
    rcases mem_append.1 hput with hput | hput
    · obtain ⟨hk, hid⟩ := hputs k time id hput
      exact ⟨item, mem_cons_self, hk, hid⟩
    · obtain ⟨i, hi, hrest⟩ := h.puts k time id hput
      exact ⟨i, mem_cons_of_mem _ hi, hrest⟩

theorem Picked.step (hstep : CheckStep stored now c item c') : Picked stored now
    (item :: rev) c' := by
  cases hstep with
  | plain hkey =>
    have hnone : dedupeKey item = none := by rw [dedupeKey, hkey]; rfl
    refine h.take (fun k hk => ?_) (fun _ _ => .inl) (fun k hk => ?_) fun _ _ _ hput => ?_
    · rw [hnone] at hk
      cases hk
    · rw [hnone] at hk
      exact hk.resolve_right nofun
    · cases hput
  | again hkey hseen =>
    exact h.duplicate (dedupeKey_eq hkey) (h.seen _ _ hseen) h.seen fun _ => id
  | @held key ttl original hkey hseen hholds =>
    refine h.duplicate (dedupeKey_eq hkey) (.inr hholds) (fun k id hk => ?_) fun k hk => ?_
    · rw [lookup_cons] at hk
      split at hk
      next heq =>
        cases hk
        exact .inr (eq_of_beq heq ▸ hholds)
      · exact h.seen k id hk
    · rw [lookup_cons]
      split
      · simp
      · exact hk
  | @new key ttl gone usage deltas hkey hseen hfree hgone =>
    refine h.take (fun k hk => ?_) (fun k id hk => ?_) (fun k hk => ?_) fun k time id hput => ?_
    · rw [dedupeKey_eq hkey] at hk
      exact Option.some.inj hk ▸ hseen
    · rw [lookup_cons] at hk
      split at hk
      · exact .inr (Option.some.inj hk).symm
      · exact .inl hk
    · rw [lookup_cons]
      split
      · simp
      next hne =>
        refine hk.resolve_right fun hk => ?_
        rw [dedupeKey_eq hkey] at hk
        rw [← Option.some.inj hk] at hne
        simp at hne
    · rw [dedupeKey_eq hkey]
      rcases mem_append.1 hput with hput | hput
      · simp only [keyPuts, mem_cons, Op.put.injEq, Val.expiry.injEq, not_mem_nil, or_false,
          reduceCtorEq, and_false] at hput
        exact ⟨by rw [hput.1], hput.2.2.symm⟩
      · obtain ⟨_, heq⟩ := hgone _ hput
        cases heq
  | refused =>
    exact { h with
      fresh := h.fresh.cons item
      marks := fun i hi => h.marks i (by simpa using hi)
      duplicates := fun env henv =>
        (h.duplicates env (by simpa using henv)).imp id fun ⟨i, hi, hrest⟩ =>
          ⟨i, mem_cons_of_mem _ hi, hrest⟩ }

end

/-- What a whole check has picked, in item order. -/
theorem dedupeCheck_picked (usage : Nat → Int) (items : List Item) :
    let checked := dedupeCheck stored usage now ords enforce quota items
    checked.fresh.Sublist items ∧ (∀ i, .fresh i ∈ checked.results → i ∈ checked.fresh) ∧
    (∀ env, .done (.duplicate env) ∈ checked.results → (∃ i ∈ checked.fresh, i.env.id = env.id) ∨
      ∃ i ∈ items, ∃ k, dedupeKey i = some k ∧ Holds stored now k env.id) ∧
    (checked.fresh.Pairwise fun i j => ∀ k, dedupeKey i = some k → dedupeKey j ≠ some k) ∧
    ∀ k time id, .put k (.expiry time id) ∈ checked.dedupeOps →
      ∃ i ∈ checked.fresh, dedupeKey i = some k ∧ i.env.id = id := by
  obtain ⟨c, heq, h⟩ :=
    dedupeCheck_inv (I := Picked stored now) usage (fun _ _ _ _ h hstep => h.step hstep)
    ⟨.slnil, fun _ hi => absurd hi not_mem_nil, fun _ hi => absurd hi not_mem_nil,
      fun _ _ hs => (nomatch hs),
      forall_mem_nil _, .nil, fun _ _ _ hp => absurd hp not_mem_nil⟩ items
  rw [heq]
  refine ⟨?_, fun i hi => ?_, fun env henv => ?_, ?_, fun k time id hput => ?_⟩
  · have hsub := h.fresh.reverse
    rw [reverse_reverse] at hsub
    exact hsub
  · exact mem_reverse.2 (h.marks i (mem_reverse.1 hi))
  · rcases h.duplicates env (mem_reverse.1 henv) with ⟨i, hi, hid⟩ | ⟨i, hi, hrest⟩
    · exact .inl ⟨i, mem_reverse.2 hi, hid⟩
    · exact .inr ⟨i, mem_reverse.1 hi, hrest⟩
  · refine pairwise_reverse.2 (h.apart.imp fun hij k hk hk' => hij k hk' hk)
  · rcases mem_append.1 hput with hput | hput
    · obtain ⟨_, _, _, heq⟩ := Counters.mem_ops hput
      cases heq
    · obtain ⟨i, hi, hrest⟩ := h.puts k time id hput
      exact ⟨i, mem_reverse.2 hi, hrest⟩

end

end Writer

end Ankusa
