import Ankusa.Envelope

set_option autoImplicit false

/-! # The wire half of a signature scheme

`verifier/template.ex` and the replay window of `verifier.ex`: what a scheme reads out of a request.
The candidate signatures (and, for some schemes, the timestamp) come out of one header, the
timestamp is judged against the clock, and the signed bytes are rebuilt from a template of literals,
the body, the timestamp and headers. Every failure is a reason of the shared vocabulary. -/

namespace Ankusa.Verifier

open Bytes List

/-- The failure vocabulary of `Ankusa.Verifier`, the part the signature verifiers use. -/
inductive Reason where
  | missingSignature | malformedSignature | noMatch | timestampOutOfTolerance
  | badSecret | badScheme | badTolerance
  deriving DecidableEq, Repr

/-- How the signature header is cut into signatures. -/
inductive Parse where
  | whole | csvPairs | spaceVersions
  deriving DecidableEq, Repr

/-- Where the timestamp is: a header of its own, or a field of the signature header. -/
inductive TimestampFrom where
  | header (name : Bin)
  | sig (field : Bin)

/-- The hash of a signature. -/
inductive Hash where
  | sha256 | sha512 | sha1

/-- The encoding of a signature. -/
inductive Encoding where
  | hex | base64

/-- How a secret is made a key. -/
inductive SecretDecode where
  | raw | whsecBase64

/-- `Ankusa.Verifier.Hmac.Scheme`, with its defaults. -/
structure Scheme where
  signatureHeader : Bin
  parse : Parse := .whole
  sigPrefix : Option Bin := none
  sigKey : Option Bin := none
  version : Option Bin := none
  signed : Bin := ascii "\x7bbody\x7d"
  hash : Hash := .sha256
  encoding : Encoding := .hex
  secretDecode : SecretDecode := .raw
  timestamp : Option TimestampFrom := none

/-- The `:tolerance` of a verifier's options: no such key, the key with `nil`, an integer, or a term
    that is none of these. -/
inductive Tolerance where
  | unset | null | seconds (n : Int) | other

/-- The options a verification reads. A secret that is not a binary is `none`; `now` is the clock,
    or the instant `:now` sets in its place. -/
structure Opts where
  secret : List (Option Bin)
  tolerance : Tolerance
  now : Int

/-! ## The candidate signatures -/

/-- `String.split(s, sep, trim: true)` for a separator of one byte. -/
def splitTrim (sep : UInt8) (s : Bin) : List Bin :=
  (s.splitOn sep).filter fun piece => !piece.isEmpty

/-- `String.split(s, "=", parts: 2)` when it gives two parts. -/
def splitPair (s : Bin) : Option (Bin × Bin) :=
  match s.dropWhile (· != 61) with
  | [] => none
  | _ :: value => some (s.takeWhile (· != 61), value)

/-- The header is one signature. -/
def whole (header : Bin) : Option Bin → Except Reason (List Bin × Option Bin)
  | none => .ok ([header], none)
  | some pre =>
    match header.dropPrefix? pre with
    | some sig => .ok ([sig], none)
    | none => .error .malformedSignature

/-- The header is a list of pairs, which may hold the timestamp. -/
def csvPairs (header : Bin) (scheme : Scheme) : Except Reason (List Bin × Option Bin) :=
  let pairs := (splitTrim 44 header).filterMap splitPair
  let sigs := pairs.filterMap fun (key, value) =>
    if scheme.sigKey = some key then some value else none
  let sigTs := match scheme.timestamp with
    | some (.sig field) =>
      pairs.findSome? fun (key, value) => if key = field then some value else none
    | _ => none
  if sigs = [] then .error .malformedSignature else .ok (sigs, sigTs)

/-- The signature a token of the header carries under a version, when it has that version. -/
def versioned : Option Bin → Bin → Option Bin
  | none, token => some token
  | some version, token => token.dropPrefix? version

/-- The header is a list of versioned signatures. -/
def spaceVersions (header : Bin) (scheme : Scheme) : Except Reason (List Bin × Option Bin) :=
  let sigs := (splitTrim 32 header).filterMap (versioned scheme.version)
  if sigs = [] then .error .malformedSignature else .ok (sigs, none)

/-- `candidates/2`: the signatures in the scheme's header, and the timestamp that header carries. -/
def candidates (unicode : Bin → Bin) (env : Envelope) (scheme : Scheme) :
    Except Reason (List Bin × Option Bin) :=
  match env.header unicode scheme.signatureHeader with
  | none => .error .missingSignature
  | some header =>
    match scheme.parse with
    | .whole => whole header scheme.sigPrefix
    | .csvPairs => csvPairs header scheme
    | .spaceVersions => spaceVersions header scheme

/-! ## The replay window -/

/-- The tolerance of a source that sets none. -/
def defaultToleranceSeconds : Int := 300

/-- The largest tolerance a source may set. -/
def maxToleranceSeconds : Int := 3600

/-- `check_tolerance/1`. -/
def checkTolerance (opts : Opts) : Except Reason Unit :=
  match opts.tolerance with
  | .unset | .null => .ok ()
  | .seconds n => if 0 ≤ n ∧ n ≤ maxToleranceSeconds then .ok () else .error .badTolerance
  | .other => .error .badTolerance

/-- `distance <= tolerance`. A term that is no number sorts after every number, so a `nil` set under
    the key is a window that never closes. -/
def Tolerance.admits : Tolerance → Int → Bool
  | .unset, distance => distance ≤ defaultToleranceSeconds
  | .seconds n, distance => distance ≤ n
  | .null, _ | .other, _ => true

/-- `Ankusa.Verifier.check_timestamp/2`. -/
def checkTimestamp (ts : Bin) (opts : Opts) : Except Reason Unit :=
  match parseInt ts with
  | some (n, _) =>
    if opts.tolerance.admits (opts.now - n).natAbs then .ok () else .error .timestampOutOfTolerance
  | none => .error .malformedSignature

/-- `timestamp/4`: the timestamp a scheme signs, checked; `none` for a scheme without one. -/
def timestamp (unicode : Bin → Bin) (env : Envelope) (scheme : Scheme) (sigTs : Option Bin)
    (opts : Opts) : Except Reason (Option Bin) :=
  match scheme.timestamp with
  | none => .ok none
  | some (.header name) =>
    match env.header unicode name with
    | none | some [] => .error .missingSignature
    | some ts => (checkTimestamp ts opts).map fun _ => some ts
  | some (.sig _) =>
    match sigTs with
    | none => .error .missingSignature
    | some ts => (checkTimestamp ts opts).map fun _ => some ts

/-! ## The signed bytes -/

/-- A piece of a compiled template. -/
inductive Part where
  | literal (bytes : Bin)
  | body
  | ts
  | header (name : Bin)

/-- The token `\{(?:body|ts|header:[^}]*)\}` at the front of a template, and what follows it. -/
def token (unicode : Bin → Bin) (s : Bin) : Option (Part × Bin) :=
  match s.dropPrefix? (ascii "\x7bbody\x7d"), s.dropPrefix? (ascii "\x7bts\x7d"),
      s.dropPrefix? (ascii "\x7bheader:") with
  | some rest, _, _ => some (.body, rest)
  | none, some rest, _ => some (.ts, rest)
  | none, none, some rest =>
    match rest.dropWhile (· != 125) with
    | _ :: rest' => some (.header (downcase unicode (rest.takeWhile (· != 125))), rest')
    | [] => none
  | none, none, none => none

/-- The literal collected so far, when there is one. -/
def literalPart (literal : Bin) : List Part := if literal = [] then [] else [.literal literal]

/-- `compile/1` with the literal collected so far; every round takes at least a byte, so the length
    of the template bounds them. -/
def compileFrom (unicode : Bin → Bin) : Nat → Bin → Bin → List Part
  | 0, literal, _ => literalPart literal
  | _ + 1, literal, [] => literalPart literal
  | n + 1, literal, c :: s =>
    match token unicode (c :: s) with
    | some (part, rest) => literalPart literal ++ part :: compileFrom unicode n [] rest
    | none => compileFrom unicode n (literal ++ [c]) s

/-- `compile/1`. -/
def compile (unicode : Bin → Bin) (template : Bin) : List Part :=
  compileFrom unicode (template.length + 1) [] template

/-- One piece filled in. -/
def Part.fill (unicode : Bin → Bin) (env : Envelope) (ts : Option Bin) : Part → Except Reason Bin
  | .literal bytes => .ok bytes
  | .body => .ok env.body
  | .ts => match ts with
    | none => .error .missingSignature
    | some ts => .ok ts
  | .header name => match env.headerDowncased unicode name with
    | none => .error .missingSignature
    | some value => .ok value

/-- `signed_iodata/3`: the pieces of the signed message in order. -/
def signedIodata (unicode : Bin → Bin) (env : Envelope) (parts : List Part) (ts : Option Bin) :
    Except Reason (List Bin) :=
  parts.mapM (Part.fill unicode env ts)

/-! ## What each step reads -/

section Spec
variable {unicode : Bin → Bin} {env : Envelope} {scheme : Scheme} {opts : Opts}

theorem checkTimestamp_eq_ok {ts : Bin} : checkTimestamp ts opts = .ok () ↔
    ∃ n, leadingInt ts = some n ∧ opts.tolerance.admits (opts.now - n).natAbs = true := by
  unfold checkTimestamp leadingInt
  cases parseInt ts with
  | none => simp
  | some parsed => simp

/-- A window of usable width admits its own instant. -/
theorem admits_zero (h : checkTolerance opts = .ok ()) : opts.tolerance.admits 0 = true := by
  unfold checkTolerance at h
  cases htolerance : opts.tolerance with
  | unset => decide
  | null | other => rfl
  | seconds n =>
    rw [htolerance] at h
    by_cases hn : 0 ≤ n ∧ n ≤ maxToleranceSeconds
    · exact decide_eq_true hn.1
    · simp [hn] at h

variable {sigTs : Option Bin} {name s header : Bin} {t : Option Bin} {signed signatures : List Bin}

theorem timestamp_header_eq_ok
    (h : scheme.timestamp = some (.header name)) : timestamp unicode env scheme sigTs opts = .ok t ↔
      ∃ ts, t = some ts ∧ env.header unicode name = some ts ∧ ts ≠ [] ∧
        checkTimestamp ts opts = .ok () := by
  unfold timestamp
  rw [h]
  rcases henv : env.header unicode name with _ | _ | ⟨c, ts⟩
  · simp [henv]
  · simp [henv]
  · cases hcheck : checkTimestamp (c :: ts) opts <;> simp [henv, Except.map, hcheck, eq_comm]

theorem timestamp_sig_eq_ok {field : Bin}
    (h : scheme.timestamp = some (.sig field)) : timestamp unicode env scheme sigTs opts = .ok t ↔
      ∃ ts, t = some ts ∧ sigTs = some ts ∧ checkTimestamp ts opts = .ok () := by
  unfold timestamp
  rw [h]
  cases sigTs with
  | none => simp
  | some ts => cases hcheck : checkTimestamp ts opts <;> simp [Except.map, hcheck, eq_comm]

variable {ts : Option Bin}

theorem signedIodata_nil : signedIodata unicode env [] ts = .ok signed ↔ signed = [] := by
  simp [signedIodata, pure, Except.pure, eq_comm]

theorem signedIodata_cons {part : Part} {parts : List Part} :
    signedIodata unicode env (part :: parts) ts = .ok signed ↔
      ∃ piece rest, part.fill unicode env ts = .ok piece ∧
        signedIodata unicode env parts ts = .ok rest ∧ signed = piece :: rest := by
  unfold signedIodata
  rw [mapM_cons]
  cases hpart : part.fill unicode env ts with
  | error => simp [bind, Except.bind]
  | ok =>
    cases hparts : parts.mapM (Part.fill unicode env ts) <;>
      simp [bind, Except.bind, pure, Except.pure, eq_comm]

variable {value : Bin}

theorem fill_literal_eq_ok {bytes : Bin} :
    (Part.literal bytes).fill unicode env ts = .ok value ↔ bytes = value := by
  simp [Part.fill]

theorem fill_body_eq_ok : Part.body.fill unicode env ts = .ok value ↔ env.body = value := by
  simp [Part.fill]

theorem fill_ts_eq_ok {ts : Bin} : Part.ts.fill unicode env (some ts) = .ok value ↔ ts = value := by
  simp [Part.fill]

theorem fill_header_eq_ok : (Part.header name).fill unicode env ts = .ok value ↔
      env.headerDowncased unicode name = some value := by
  unfold Part.fill
  cases hvalue : env.headerDowncased unicode name <;> simp [hvalue]

theorem notMem_of_mem_splitTrim {sep : UInt8} {piece : Bin} (h : piece ∈ splitTrim sep s) :
    sep ∉ piece := notMem_of_mem_splitOn (mem_filter.mp h).1

theorem eq_of_splitPair {key : Bin} (h : splitPair s = some (key, value)) :
    s = key ++ 61 :: value := by
  unfold splitPair at h
  have hcut := takeWhile_append_dropWhile (p := (· != 61)) (l := s)
  have hhead := head?_dropWhile_not (· != 61) s
  cases hrest : s.dropWhile (· != 61) with
  | nil => rw [hrest] at h; cases h
  | cons c =>
    rw [hrest] at h hcut hhead
    have hc : c = 61 := by simpa using hhead
    cases h
    rw [hc] at hcut
    exact hcut.symm

theorem splitPair_append (key value : Bin) (h : 61 ∉ key) :
    splitPair (key ++ 61 :: value) = some (key, value) := by
  have hkey : ∀ c ∈ key, (c != 61) = true := fun c hc => bne_iff_ne.mpr fun heq => h (heq ▸ hc)
  unfold splitPair
  rw [dropWhile_append_of_pos hkey, takeWhile_append_of_pos hkey]
  simp

/-- Nothing a comma-separated signature header carries holds a comma. -/
theorem notMem_of_csvPairs (h : csvPairs header scheme = .ok (signatures, sigTs)) :
    (∀ v ∈ signatures, 44 ∉ v) ∧ ∀ ts, sigTs = some ts → 44 ∉ ts := by
  have hpair : ∀ key value, (key, value) ∈ (splitTrim 44 header).filterMap splitPair →
      44 ∉ value := by
    intro key value hmem hcomma
    obtain ⟨piece, hpiece, hsplit⟩ := mem_filterMap.mp hmem
    apply notMem_of_mem_splitTrim hpiece
    rw [eq_of_splitPair hsplit]
    simp [hcomma]
  unfold csvPairs at h
  simp only at h
  split at h
  · cases h
  cases h
  refine ⟨fun v hv => ?_, fun ts hts => ?_⟩
  · obtain ⟨⟨key, value⟩, hmem, hvalue⟩ := mem_filterMap.mp hv
    simp only [Option.ite_none_right_eq_some, Option.some.injEq] at hvalue
    rw [← hvalue.2]
    exact hpair key value hmem
  · split at hts
    · obtain ⟨⟨key, value⟩, hmem, hvalue⟩ := exists_of_findSome?_eq_some hts
      simp only [Option.ite_none_right_eq_some, Option.some.injEq] at hvalue
      rw [← hvalue.2]
      exact hpair key value hmem
    · cases hts

/-- No signature of a space-separated header holds a space. -/
theorem notMem_of_spaceVersions
    (h : spaceVersions header scheme = .ok (signatures, sigTs)) : ∀ v ∈ signatures, 32 ∉ v := by
  unfold spaceVersions at h
  simp only at h
  split at h
  · cases h
  cases h
  intro v hv hspace
  obtain ⟨token, hmem, hv⟩ := mem_filterMap.mp hv
  apply notMem_of_mem_splitTrim hmem
  cases hversion : scheme.version with
  | none =>
    rw [hversion] at hv
    cases hv
    exact hspace
  | some =>
    rw [hversion] at hv
    obtain ⟨pre, htoken, _⟩ := dropPrefix?_eq_some_iff.mp hv
    rw [htoken]
    exact mem_append_right _ hspace

end Spec

end Ankusa.Verifier
