import Ankusa.Verifier.Hmac

set_option autoImplicit false

/-! # What a signature binds

A signature is taken over a string the verifier rebuilds from the request: the timestamp and the
body (and, for Standard Webhooks, an identifier) joined by a separator that each of them may
contain, and the timestamp is only required to *start* with a number. `Preset.Signs` states which
messages are built from which fields. A request is accepted for every way to cut the signed message
that gives such fields, so a signature binds the timestamp and the body of a request exactly when no
other cut exists: `Preset.Clear` says when that is, for each preset. -/

namespace Ankusa.Verifier

open Bytes List

/-! ## The messages of a preset -/

/-- What follows some full stop of an identifier starts with a number. -/
def numberedDot : Bin → Bool
  | [] => false
  | c :: rest => (c == 46 && (leadingInt rest).isSome) || numberedDot rest

/-- The fields a preset signs, and the message it makes of them. A timestamp that travels in a
    comma-separated header holds no comma. -/
def Preset.Signs (p : Preset) (message id ts body : Bin) : Prop :=
  match p with
  | .slack => message = ascii "v0:" ++ (ts ++ 58 :: body)
  | .stripe => message = ts ++ 46 :: body ∧ 44 ∉ ts
  | .standardWebhooks => message = id ++ 46 :: (ts ++ 46 :: body)
  | .github | .shopify => False

/-- No other fields give the same message: the separator does not occur where it would make a second
    cut the verifier accepts. -/
def Preset.Clear (p : Preset) (id ts body : Bin) : Prop :=
  match p with
  | .slack => 58 ∉ ts ∧ 58 ∉ body
  | .stripe => 46 ∉ ts ∧ 46 ∉ body.takeWhile (· != 44)
  | .standardWebhooks => 46 ∉ ts ∧ 46 ∉ body ∧ numberedDot id = false
  | .github | .shopify => True

instance (p : Preset) (id ts body : Bin) : Decidable (p.Clear id ts body) := by
  cases p <;> unfold Preset.Clear <;> infer_instance

theorem numberedDot_iff {id : Bin} : numberedDot id = true ↔
    ∃ front rest, id = front ++ 46 :: rest ∧ (leadingInt rest).isSome = true := by
  induction id with
  | nil => simp [numberedDot]
  | cons c id ih =>
    rw [numberedDot, Bool.or_eq_true, Bool.and_eq_true, beq_iff_eq, ih]
    constructor
    · rintro (⟨rfl, hnumber⟩ | ⟨front, rest, rfl, hnumber⟩)
      · exact ⟨[], id, rfl, hnumber⟩
      · exact ⟨c :: front, rest, rfl, hnumber⟩
    rintro ⟨front, rest, hid, hnumber⟩
    cases front with
    | nil =>
      cases hid
      exact .inl ⟨rfl, hnumber⟩
    | cons x front =>
      cases hid
      exact .inr ⟨front, rest, rfl, hnumber⟩

/-! ## When a message has one reading -/

variable {ts body message v : Bin} {p : Preset} {unicode : Bin → Bin} {env : Envelope}

/-- A Stripe timestamp is cut at another full stop only before the first comma. -/
theorem stripe_unique_iff (hts : 44 ∉ ts) : (∀ ts' body',
      ts ++ 46 :: body = ts' ++ 46 :: body' → 44 ∉ ts' → ts' = ts ∧ body' = body) ↔
        46 ∉ ts ∧ 46 ∉ body.takeWhile (· != 44) := by
  rw [cut_unique_iff (fun s => 44 ∉ s) (fun a m h hmem => h (mem_append_left _ hmem)) hts,
    notMem_takeWhile_iff (by decide)]
  refine and_congr_right fun _ => forall₃_congr fun m rest _ => ?_
  simp [hts]

/-- A Standard Webhooks message has one timestamp and one body exactly when neither holds a full
    stop and the identifier holds none that a number follows. -/
theorem standardWebhooks_unique_iff {id : Bin} (hts : (leadingInt ts).isSome = true) :
    (∀ id' ts' body', id ++ 46 :: (ts ++ 46 :: body) = id' ++ 46 :: (ts' ++ 46 :: body') →
      (leadingInt ts').isSome = true → ts' = ts ∧ body' = body) ↔
        46 ∉ ts ∧ 46 ∉ body ∧ numberedDot id = false := by
  constructor
  · intro hunique
    have hsame : ∀ ts' body', ts ++ 46 :: body = ts' ++ 46 :: body' → ts' = ts ∧ body' = body := by
      intro ts' body' heq
      refine hunique id ts' body' (by rw [heq]) ?_
      rwa [← leadingInt_eq_of_cut (by decide) (by decide) heq]
    obtain ⟨hnots, hnobody⟩ := cut_alone_iff.mp hsame
    refine ⟨hnots, hnobody, Bool.not_eq_true _ ▸ fun hdot => ?_⟩
    obtain ⟨front, rest, rfl, hnumber⟩ := numberedDot_iff.mp hdot
    -- the number in the identifier reads as a timestamp that runs up to the real one
    have hts' := (hunique front (rest ++ 46 :: ts) body (by simp)
      (by rwa [leadingInt_append_cons (by decide) (by decide)])).1
    have hlength := congrArg List.length hts'
    simp at hlength
    omega
  · rintro ⟨hnots, hnobody, hid⟩ id' ts' body' heq hts'
    rcases cut_cases heq with ⟨_, hrest⟩ | ⟨m, _, hrest⟩ | ⟨m, rfl, hrest⟩
    · exact cut_alone_iff.mpr ⟨hnots, hnobody⟩ ts' body' hrest
    · -- the identifier would have swallowed the timestamp, and the body the separator
      have hbody := (cut_alone_iff.mpr ⟨hnots, hnobody⟩ m _ hrest).2
      exact absurd (hbody ▸ by simp) hnobody
    · have hm := leadingInt_eq_of_cut (by decide) (by decide) hrest
      rw [hm] at hts'
      exact absurd (numberedDot_iff.mpr ⟨id', m, rfl, hts'⟩) (by simp [hid])

/-- No other fields give the message of a request exactly when its fields are clear. -/
theorem signs_unique_iff {id : Bin} (h : p.Signs message id ts body)
    (hts : (leadingInt ts).isSome = true) : (∀ id' ts' body', p.Signs message id' ts' body' →
      (leadingInt ts').isSome = true → ts' = ts ∧ body' = body) ↔ p.Clear id ts body := by
  cases p with
  | github | shopify => exact h.elim
  | slack =>
    rw [Preset.Clear, ← cut_alone_iff]
    constructor
    · intro hunique ts' body' heq
      refine hunique [] ts' body' ?_ ?_
      · rw [Preset.Signs, ← heq]; exact h
      · rwa [← leadingInt_eq_of_cut (by decide) (by decide) heq]
    · intro hunique id' ts' body' h' _
      exact hunique ts' body' (append_cancel_left (h.symm.trans h'))
  | stripe =>
    rw [Preset.Clear, ← stripe_unique_iff h.2]
    constructor
    · intro hunique ts' body' heq hcomma
      refine hunique [] ts' body' ⟨h.1.trans heq, hcomma⟩ ?_
      rwa [← leadingInt_eq_of_cut (by decide) (by decide) heq]
    · intro hunique id' ts' body' h' _
      exact hunique ts' body' (h.1.symm.trans h'.1) h'.2
  | standardWebhooks =>
    rw [Preset.Clear, ← standardWebhooks_unique_iff hts]
    constructor
    · intro hunique id' ts' body' heq
      exact hunique id' ts' body' (h.trans heq)
    · intro hunique id' ts' body' h'
      exact hunique id' ts' body' (h.symm.trans h')

/-! ## What a verifier reads are the fields of a message -/

/-- The identifier a request carries. -/
def webhookId (rt : Runtime) (env : Envelope) : Bin :=
  (env.headerDowncased rt.unicode (ascii "webhook-id")).getD []

/-- The signatures a preset's header can carry. -/
def Preset.Carries (p : Preset) (v : Bin) : Prop :=
  match p with
  | .stripe => 44 ∉ v
  | .standardWebhooks => 32 ∉ v
  | .github | .shopify | .slack => True

/-- The templates as `compile/1` leaves them. -/
def Preset.template : Preset → List Part
  | .github | .shopify => [.body]
  | .slack => [.literal (ascii "v0:"), .ts, .literal [58], .body]
  | .stripe => [.ts, .literal [46], .body]
  | .standardWebhooks =>
    [.header (ascii "webhook-id"), .literal [46], .header (ascii "webhook-timestamp"),
      .literal [46], .body]

theorem compile_template (p : Preset) (unicode : Bin → Bin) :
    compile unicode p.scheme.signed = p.template := by
  cases p <;> rfl

/-- The message of each preset, from the fields the request carries. -/
theorem signedIodata_template {signed : List Bin} :
    signedIodata unicode env p.template (some ts) = .ok signed ↔
      match p with
      | .github | .shopify => signed = [env.body]
      | .slack => signed = [ascii "v0:", ts, [58], env.body]
      | .stripe => signed = [ts, [46], env.body]
      | .standardWebhooks => ∃ id ts',
          env.headerDowncased unicode (ascii "webhook-id") = some id ∧
          env.headerDowncased unicode (ascii "webhook-timestamp") = some ts' ∧
          signed = [id, [46], ts', [46], env.body] := by
  cases p <;> simp [Preset.template, signedIodata_cons, signedIodata_nil, fill_literal_eq_ok,
    fill_body_eq_ok, fill_ts_eq_ok, fill_header_eq_ok]

section Read
variable {rt : Runtime} {opts : Opts} {env : Envelope} {r : Reading}

theorem candidates_eq_ok {scheme : Scheme} {found : List Bin × Option Bin}
    (h : candidates unicode env scheme = .ok found) :
    ∃ header, env.header unicode scheme.signatureHeader = some header ∧
      match scheme.parse with
      | .whole => whole header scheme.sigPrefix = .ok found
      | .csvPairs => csvPairs header scheme = .ok found
      | .spaceVersions => spaceVersions header scheme = .ok found := by
  unfold candidates at h
  cases hheader : env.header unicode scheme.signatureHeader with
  | none => rw [hheader] at h; cases h
  | some header =>
    rw [hheader] at h
    refine ⟨header, rfl, ?_⟩
    cases hparse : scheme.parse <;> rw [hparse] at h <;> exact h

theorem read_carries (h : p.read rt opts env = .ok r) : ∀ v ∈ r.signatures, p.Carries v := by
  obtain ⟨sigTs, signed, hcandidates, -⟩ := read_eq_ok.mp h
  obtain ⟨header, -, hparse⟩ := candidates_eq_ok hcandidates
  cases p with
  | github | shopify | slack => exact fun _ _ => trivial
  | stripe => exact (notMem_of_csvPairs hparse).1
  | standardWebhooks => exact notMem_of_spaceVersions hparse

/-- The message an accepted timestamp was read from is the one its preset signs. -/
theorem read_signs (h : p.read rt opts env = .ok r) (hts : r.ts = some ts) :
    p.Signs r.message (webhookId rt env) ts env.body ∧ (leadingInt ts).isSome = true := by
  obtain ⟨sigTs, signed, hcandidates, htimestamp, hsigned, hmessage⟩ := read_eq_ok.mp h
  rw [hts] at htimestamp hsigned
  have hnumber : ∀ {ts'}, some ts = some ts' → checkTimestamp ts' opts = .ok () →
      (leadingInt ts).isSome = true := by
    rintro _ ⟨⟩ hcheck
    obtain ⟨n, hn, -⟩ := checkTimestamp_eq_ok.mp hcheck
    rw [hn]
    rfl
  rw [compile_template, signedIodata_template] at hsigned
  cases p with
  | github | shopify => cases htimestamp
  | slack =>
    obtain ⟨ts', hts', -, -, hcheck⟩ := (timestamp_header_eq_ok rfl).mp htimestamp
    refine ⟨?_, hnumber hts' hcheck⟩
    rw [Preset.Signs, ← hmessage, hsigned]
    simp
  | stripe =>
    obtain ⟨ts', hts', hsig, hcheck⟩ := (timestamp_sig_eq_ok rfl).mp htimestamp
    obtain ⟨header, -, hparse⟩ := candidates_eq_ok hcandidates
    cases hts'
    refine ⟨⟨?_, (notMem_of_csvPairs hparse).2 ts hsig⟩, hnumber rfl hcheck⟩
    rw [← hmessage, hsigned]
    simp
  | standardWebhooks =>
    obtain ⟨_, hts', hheader, -, hcheck⟩ := (timestamp_header_eq_ok rfl).mp htimestamp
    cases hts'
    obtain ⟨id, ts', hid, hts', rfl⟩ := hsigned
    -- the template and the replay window read the same header
    have hsame : ts' = ts := Option.some.inj (hts'.symm.trans hheader)
    refine ⟨?_, hnumber rfl hcheck⟩
    rw [Preset.Signs, ← hmessage, webhookId, hid, hsame]
    simp

end Read

/-! ## Every such message is accepted -/

/-- The request that presents the fields of a message under a signature. -/
def Preset.request (p : Preset) (env : Envelope) (id ts v body : Bin) : Envelope :=
  { env with
    body
    headers := match p with
      | .slack =>
        [(ascii "x-slack-signature", ascii "v0=" ++ v), (ascii "x-slack-request-timestamp", ts)]
      | .stripe => [(ascii "stripe-signature", ascii "t=" ++ ts ++ 44 :: (ascii "v1=" ++ v))]
      | .standardWebhooks =>
        [(ascii "webhook-signature", ascii "v1," ++ v), (ascii "webhook-id", id),
          (ascii "webhook-timestamp", ts)]
      | .github | .shopify => [] }

theorem header_request {id : Bin} :
    (Preset.slack.request env id ts v body).header unicode Preset.slack.scheme.signatureHeader =
        some (ascii "v0=" ++ v) ∧
      (Preset.stripe.request env id ts v body).header unicode Preset.stripe.scheme.signatureHeader =
        some (ascii "t=" ++ ts ++ 44 :: (ascii "v1=" ++ v)) ∧
      (Preset.standardWebhooks.request env id ts v body).header unicode
        Preset.standardWebhooks.scheme.signatureHeader = some (ascii "v1," ++ v) :=
  ⟨rfl, rfl, rfl⟩

theorem candidates_request (unicode : Bin → Bin) (env : Envelope)
    {id : Bin} (h : p.Signs message id ts body) (hv : p.Carries v) :
    ∃ sigTs, candidates unicode (p.request env id ts v body) p.scheme = .ok ([v], sigTs) ∧
      (p = .stripe → sigTs = some ts) := by
  cases p with
  | github | shopify => exact h.elim
  | slack =>
    have hsig : (ascii "v0=" ++ v).dropPrefix? (ascii "v0=") = some v :=
      dropPrefix?_append_of_beq v (by simp)
    refine ⟨none, ?_, nofun⟩
    rw [candidates, header_request.1]
    simp [Preset.scheme, whole, hsig]
  | stripe =>
    have hts : 44 ∉ ascii "t=" ++ ts := not_mem_append (by decide) h.2
    have hsig : 44 ∉ ascii "v1=" ++ v := not_mem_append (by decide) hv
    have hpairs :
      (splitTrim 44 (ascii "t=" ++ ts ++ 44 :: (ascii "v1=" ++ v))).filterMap splitPair =
        [(ascii "t", ts), (ascii "v1", v)] := by
      have htsPair := splitPair_append (ascii "t") ts (by decide)
      have hsigPair := splitPair_append (ascii "v1") v (by decide)
      rw [splitTrim, splitOn_append_cons hts hsig]
      exact filterMap_cons_some htsPair ▸ filterMap_cons_some hsigPair ▸ rfl
    refine ⟨some ts, ?_, fun _ => rfl⟩
    rw [candidates, header_request.2.1]
    show csvPairs _ _ = _
    rw [csvPairs, hpairs]
    rfl
  | standardWebhooks =>
    have hsplit : splitTrim 32 (ascii "v1," ++ v) = [ascii "v1," ++ v] := by
      have hsig : 32 ∉ ascii "v1," ++ v := not_mem_append (by decide) hv
      rw [splitTrim, splitOn_eq_singleton hsig]
      rfl
    have hsig : (ascii "v1," ++ v).dropPrefix? (ascii "v1,") = some v :=
      dropPrefix?_append_of_beq v (by simp)
    refine ⟨none, ?_, nofun⟩
    rw [candidates, header_request.2.2]
    simp [Preset.scheme, spaceVersions, hsplit, versioned, hsig]

theorem signed_request (unicode : Bin → Bin) (env : Envelope) {id : Bin} (v : Bin)
    (h : p.Signs message id ts body) :
    ∃ signed, signedIodata unicode (p.request env id ts v body) p.template (some ts) = .ok signed ∧
      signed.flatten = message := by
  cases p with
  | github | shopify => exact h.elim
  | slack => exact ⟨_, signedIodata_template.mpr rfl, by rw [h]; simp [Preset.request]⟩
  | stripe => exact ⟨_, signedIodata_template.mpr rfl, by rw [h.1]; simp [Preset.request]⟩
  | standardWebhooks =>
    exact ⟨_, signedIodata_template.mpr ⟨id, ts, rfl, rfl, rfl⟩, by rw [h]; simp [Preset.request]⟩

/-- Whatever fields give a message, the request that presents them is read as that message, at the
    instant its timestamp names. -/
theorem read_request (rt : Runtime) {opts : Opts} (env : Envelope)
    {id : Bin} {n : Int} (h : p.Signs message id ts body) (hv : p.Carries v)
    (hn : leadingInt ts = some n) (htolerance : checkTolerance opts = .ok ()) :
    p.read rt { opts with now := n }
    (p.request env id ts v body) = .ok ⟨[v], some ts, message⟩ := by
  have hcheck : checkTimestamp ts { opts with now := n } = .ok () := by
    refine checkTimestamp_eq_ok.mpr ⟨n, hn, ?_⟩
    simpa using admits_zero htolerance
  have hne : ts ≠ [] := by
    rintro rfl
    exact absurd hn (by simp [leadingInt, parseInt, parseDigits])
  obtain ⟨sigTs, hcandidates, hstripe⟩ := candidates_request rt.unicode env h hv
  obtain ⟨signed, hsigned, hmessage⟩ := signed_request rt.unicode env v h
  rw [← compile_template p rt.unicode] at hsigned
  refine read_eq_ok.mpr ⟨sigTs, signed, hcandidates, ?_, hsigned, hmessage⟩
  cases p with
  | github | shopify => exact h.elim
  | slack | standardWebhooks => exact (timestamp_header_eq_ok rfl).mpr ⟨ts, rfl, rfl, hne, hcheck⟩
  | stripe => exact (timestamp_sig_eq_ok rfl).mpr ⟨ts, rfl, hstripe rfl, hcheck⟩

/-! ## Binding -/

/-- A request the verifier accepts under a key: what it was read as, and the signature it carries
    for that reading. -/
structure Accepted (rt : Runtime) (p : Preset) (key : Bin) (opts : Opts) (env : Envelope)
    (r : Reading) (v : Bin) : Prop where
  verified : verify rt (.preset p) opts env = .ok ()
  read : p.read rt opts env = .ok r
  carried : v ∈ r.signatures
  signed : p.sign rt key r.message = v

section Binds
variable {rt : Runtime} {p : Preset} {key : Bin} {opts : Opts} {env : Envelope} {r : Reading}
  {ts v : Bin}

theorem sign_injective (hmac : Function.Injective (rt.mac p.scheme.hash key)) :
    Function.Injective (p.sign rt key) :=
  fun _ _ h => hmac (encode_injective p.scheme.encoding h)

/-- A preset that reads a timestamp reads one from every request it reads. -/
theorem read_stamped {opts' : Opts} {env' : Envelope} {r' : Reading}
    (h : p.read rt opts env = .ok r) (hts : r.ts = some ts)
    (h' : p.read rt opts' env' = .ok r') : ∃ ts', r'.ts = some ts' := by
  obtain ⟨_, _, _, htimestamp, -⟩ := read_eq_ok.mp h
  obtain ⟨_, _, _, htimestamp', -⟩ := read_eq_ok.mp h'
  rw [hts] at htimestamp
  cases p with
  | github | shopify => cases htimestamp
  | slack | standardWebhooks =>
    obtain ⟨ts', hts', -⟩ := (timestamp_header_eq_ok rfl).mp htimestamp'
    exact ⟨ts', hts'⟩
  | stripe =>
    obtain ⟨ts', hts', -⟩ := (timestamp_sig_eq_ok rfl).mp htimestamp'
    exact ⟨ts', hts'⟩

/-- The request that presents any fields of a signed message is accepted. -/
theorem accepted_request {id ts' : Bin} {n : Int}
    (hkey : secretKeys opts p.scheme = .ok [key]) (h : Accepted rt p key opts env r v)
    (hsigns : p.Signs r.message id ts' body) (hn : leadingInt ts' = some n) :
    Accepted rt p key { opts with now := n } (p.request env id ts' v body)
      ⟨[v], some ts', r.message⟩ v := by
  have htolerance := (verify_eq_ok.mp h.verified).1
  have hread := read_request rt env hsigns (read_carries h.read v h.carried) hn htolerance
  refine ⟨?_, hread, mem_singleton_self v, h.signed⟩
  refine verify_eq_ok.mpr ⟨htolerance, _, _, hread, hkey, key, mem_singleton_self key, ?_⟩
  rw [h.signed]
  exact mem_singleton_self v

/-- A signature binds the timestamp and the body of an accepted request (every request accepted at
    any time for the same signature carries the same ones) exactly when its fields are clear of
    the separator. -/
theorem signature_binds_iff (hkey : secretKeys opts p.scheme = .ok [key])
    (hmac : Function.Injective (rt.mac p.scheme.hash key)) (h : Accepted rt p key opts env r v)
    (hts : r.ts = some ts) : (∀ now env' r', Accepted rt p key { opts with now } env' r' v →
      r'.ts = r.ts ∧ env'.body = env.body) ↔ p.Clear (webhookId rt env) ts env.body := by
  obtain ⟨hsigns, hnumber⟩ := read_signs h.read hts
  rw [← signs_unique_iff hsigns hnumber]
  constructor
  · intro hbinds id' ts' body' hsigns' hnumber'
    obtain ⟨n, hn⟩ := Option.isSome_iff_exists.mp hnumber'
    have hsame := hbinds n _ _ (accepted_request hkey h hsigns' hn)
    rw [hts] at hsame
    exact ⟨Option.some.inj hsame.1, hsame.2⟩
  · intro hunique now env' r' h'
    have hmessage : r'.message = r.message := sign_injective hmac (h'.signed.trans h.signed.symm)
    obtain ⟨ts', hts'⟩ := read_stamped h.read hts h'.read
    obtain ⟨hsigns', hnumber'⟩ := read_signs h'.read hts'
    rw [hmessage] at hsigns'
    obtain ⟨hsame, hbody⟩ := hunique _ ts' env'.body hsigns' hnumber'
    exact ⟨by rw [hts', hts, hsame], hbody⟩

end Binds

/-- A runtime whose MAC is the key before the message: injective, and small enough to run. -/
def plainRuntime : Runtime := { unicode := id, mac := fun _ key message => key ++ message }

theorem plainRuntime_injective (hash : Hash) (key : Bin) :
    Function.Injective (plainRuntime.mac hash key) := fun _ _ h => append_cancel_left h

/-- A Slack source with one key. -/
def slackOpts : Opts := { secret := [some (ascii "key")], tolerance := .unset, now := 1000 }

/-- The signature a provider gives the hook it sends at second 1000 with that body. -/
def slackSignature (body : String) : Bin :=
  Preset.slack.sign plainRuntime (ascii "key") (ascii "v0:1000:" ++ ascii body)

/-- The request that presents a timestamp and a body under a signature. -/
def slackRequest (ts body : String) (v : Bin) : Envelope :=
  Preset.slack.request ⟨ascii "slack", none, [], none, [], none, none⟩ [] (ascii ts) v (ascii body)

/-- What the verifier reads out of the hook with body `text=hello`. -/
def helloReading : Reading :=
  ⟨[slackSignature "text=hello"], some (ascii "1000"), ascii "v0:1000:text=hello"⟩

/-- A body without a colon: the signature of this hook binds it. -/
theorem slackRequest_bound : Accepted plainRuntime .slack (ascii "key") slackOpts
      (slackRequest "1000" "text=hello" (slackSignature "text=hello")) helloReading
      (slackSignature "text=hello") ∧
    ∀ now env' r', Accepted plainRuntime .slack (ascii "key") { slackOpts with now } env' r'
        (slackSignature "text=hello") →
      r'.ts = some (ascii "1000") ∧ env'.body = ascii "text=hello" := by
  have hkey : secretKeys slackOpts Preset.slack.scheme = .ok [ascii "key"] := by decide +kernel
  have haccepted : Accepted plainRuntime .slack (ascii "key") slackOpts
      (slackRequest "1000" "text=hello" (slackSignature "text=hello")) helloReading
      (slackSignature "text=hello") :=
    ⟨by decide +kernel, by decide +kernel, by decide +kernel, by decide +kernel⟩
  have hbinds :=
    (signature_binds_iff hkey (plainRuntime_injective _ _) haccepted rfl).mpr (by decide +kernel)
  exact ⟨haccepted, hbinds⟩

/-- A body with a colon: whoever has seen the hook moves what stands before the colon into the
    timestamp header, and the rest is accepted as the body under the same signature. -/
theorem slackRequest_recut :
    Function.Injective (plainRuntime.mac .sha256 (ascii "key")) ∧
    verify plainRuntime (.preset .slack) slackOpts
      (slackRequest "1000" "amount:5" (slackSignature "amount:5")) = .ok () ∧
    verify plainRuntime (.preset .slack) slackOpts
      (slackRequest "1000:amount" "5" (slackSignature "amount:5")) = .ok () ∧
    (slackRequest "1000" "amount:5" (slackSignature "amount:5")).body ≠
      (slackRequest "1000:amount" "5" (slackSignature "amount:5")).body :=
  ⟨plainRuntime_injective _ _, by decide +kernel, by decide +kernel, by decide +kernel⟩

end Ankusa.Verifier
