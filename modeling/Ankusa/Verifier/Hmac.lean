import Ankusa.Verifier.Template

set_option autoImplicit false

/-! # HMAC verification and its presets

`verifier/hmac.ex` and `verifier/schemes.ex`. The MAC itself is a parameter: it is fed the pieces of
the signed message one after the other, so it sees their concatenation. -/

namespace Ankusa.Verifier

open Bytes

/-- What the runtime's libraries compute: `String.downcase/1` past ASCII, and the HMAC of a message
    under a key. -/
structure Runtime where
  unicode : Bin → Bin
  mac : Hash → Bin → Bin → Bin

/-! ## Secrets -/

/-- `raw_key/2`. -/
def rawKey (secret : Bin) : SecretDecode → Option Bin
  | .raw => some secret
  | .whsecBase64 => decode64 ((secret.dropPrefix? (ascii "whsec_")).getD secret)

/-- `decode_secret/2`: an empty key is no key. -/
def decodeSecret (decode : SecretDecode) (secret : Option Bin) : Option Bin := do
  let key ← rawKey (← secret) decode
  if key = [] then none else some key

/-- `secret_keys/2`: every secret decodes, and there is at least one. -/
def secretKeys (opts : Opts) (scheme : Scheme) : Except Reason (List Bin) :=
  match opts.secret.mapM (decodeSecret scheme.secretDecode) with
  | some (key :: keys) => .ok (key :: keys)
  | _ => .error .badSecret

/-! ## Schemes -/

/-- What stands between braces in a template (`~r/\{([^}]*)\}/`). -/
def bracedTokens : Nat → Bin → List Bin
  | 0, _ | _ + 1, [] => []
  | n + 1, c :: s =>
    if c = 123 then
      match s.dropWhile (· != 125) with
      | _ :: rest => s.takeWhile (· != 125) :: bracedTokens n rest
      | [] => bracedTokens n s
    else bracedTokens n s

/-- `valid_signed?/1`. -/
def validSigned (signed : Bin) : Bool :=
  (bracedTokens (signed.length + 1) signed).all fun token =>
    token == ascii "body" || token == ascii "ts" || (ascii "header:").isPrefixOf token

/-- `valid_timestamp?/1`. -/
def validTimestamp : Option TimestampFrom → Bool
  | none => true
  | some (.header name) | some (.sig name) => name != []

/-- `Ankusa.Verifier.Schemes.validate!/1`, for the checks the types leave open. -/
def Scheme.valid (scheme : Scheme) : Bool :=
  scheme.signatureHeader != [] && validTimestamp scheme.timestamp && validSigned scheme.signed &&
    !(scheme.parse == .csvPairs && scheme.sigKey.isNone) &&
    !((match scheme.timestamp with | some (.sig _) => true | _ => false) &&
      scheme.parse != .csvPairs) &&
    !(scheme.signed.tails.any (ascii "\x7bts\x7d").isPrefixOf && scheme.timestamp.isNone)

/-- The named presets of `Ankusa.Verifier.Schemes`. -/
inductive Preset where
  | github | shopify | slack | stripe | standardWebhooks

/-- The wire details of each preset. -/
def Preset.scheme : Preset → Scheme
  | .github =>
    { signatureHeader := ascii "X-Hub-Signature-256"
      sigPrefix := some (ascii "sha256=") }
  | .shopify =>
    { signatureHeader := ascii "X-Shopify-Hmac-SHA256"
      encoding := .base64 }
  | .slack =>
    { signatureHeader := ascii "X-Slack-Signature"
      sigPrefix := some (ascii "v0=")
      signed := ascii "v0:\x7bts\x7d:\x7bbody\x7d"
      timestamp := some (.header (ascii "X-Slack-Request-Timestamp")) }
  | .stripe =>
    { signatureHeader := ascii "Stripe-Signature"
      parse := .csvPairs
      sigKey := some (ascii "v1")
      signed := ascii "\x7bts\x7d.\x7bbody\x7d"
      timestamp := some (.sig (ascii "t")) }
  | .standardWebhooks =>
    { signatureHeader := ascii "webhook-signature"
      parse := .spaceVersions
      version := some (ascii "v1,")
      signed := ascii "\x7bheader:webhook-id\x7d.\x7bheader:webhook-timestamp\x7d.\x7bbody\x7d"
      encoding := .base64
      secretDecode := .whsecBase64
      timestamp := some (.header (ascii "webhook-timestamp")) }

/-- The `:scheme` option: a preset's name, an inline scheme, or anything else. -/
inductive SchemeOpt where
  | preset (name : Preset)
  | inline (scheme : Scheme)
  | unknown

/-- `resolve_scheme/1`: the scheme and its compiled template. -/
def resolveScheme (unicode : Bin → Bin) : SchemeOpt → Except Reason (Scheme × List Part)
  | .preset name => .ok (name.scheme, compile unicode name.scheme.signed)
  | .inline scheme =>
    if scheme.valid then .ok (scheme, compile unicode scheme.signed) else .error .badScheme
  | .unknown => .error .badScheme

/-! ## Verification -/

/-- `encode/2`. -/
def encode (mac : Bin) : Encoding → Bin
  | .hex => encode16 mac
  | .base64 => encode64 mac

/-- The signature a key gives a message. -/
def expected (rt : Runtime) (scheme : Scheme) (key : Bin) (signed : List Bin) : Bin :=
  encode (rt.mac scheme.hash key signed.flatten) scheme.encoding

/-- `Ankusa.Verifier.secure_compare/2`. -/
def secureCompare (a b : Bin) : Bool := a.length == b.length && a == b

/-- `verify/2`. -/
def verify (rt : Runtime) (schemeOpt : SchemeOpt) (opts : Opts) (env : Envelope) :
    Except Reason Unit := do
  let (scheme, template) ← resolveScheme rt.unicode schemeOpt
  checkTolerance opts
  let (candidates, sigTs) ← candidates rt.unicode env scheme
  let ts ← timestamp rt.unicode env scheme sigTs opts
  let signed ← signedIodata rt.unicode env template ts
  let keys ← secretKeys opts scheme
  if keys.any fun key => candidates.any (secureCompare · (expected rt scheme key signed))
  then .ok () else .error .noMatch

theorem encode_injective (encoding : Encoding) : Function.Injective (encode · encoding) := by
  cases encoding with
  | hex => exact encode16_injective
  | base64 => exact encode64_injective

theorem secureCompare_iff {a b : Bin} : secureCompare a b = true ↔ a = b := by
  unfold secureCompare
  rw [Bool.and_eq_true, beq_iff_eq, beq_iff_eq]
  exact ⟨And.right, fun h => ⟨congrArg List.length h, h⟩⟩

/-! ## What an accepted request was taken for -/

/-- What a verifier reads out of a request: its signatures, its timestamp and the signed bytes. -/
structure Reading where
  signatures : List Bin
  ts : Option Bin
  message : Bin
  deriving DecidableEq, Repr

/-- The reading of a request under a preset: the steps of `verify/2` between the tolerance and the
    keys. -/
def Preset.read (p : Preset) (rt : Runtime) (opts : Opts) (env : Envelope) :
    Except Reason Reading := do
  let (signatures, sigTs) ← candidates rt.unicode env p.scheme
  let ts ← timestamp rt.unicode env p.scheme sigTs opts
  let signed ← signedIodata rt.unicode env (compile rt.unicode p.scheme.signed) ts
  return ⟨signatures, ts, signed.flatten⟩

/-- The signature a key gives the bytes of a message under a preset. -/
def Preset.sign (p : Preset) (rt : Runtime) (key message : Bin) : Bin :=
  encode (rt.mac p.scheme.hash key message) p.scheme.encoding

theorem bind_eq_ok {ε α β : Type} {x : Except ε α} {f : α → Except ε β} {b : β} :
    x >>= f = .ok b ↔ ∃ a, x = .ok a ∧ f a = .ok b := by
  cases x with
  | error =>
    refine ⟨fun h => (nomatch h), ?_⟩
    rintro ⟨a, ha, _⟩
    cases ha
  | ok a =>
    refine ⟨fun h => ⟨a, rfl, h⟩, ?_⟩
    rintro ⟨a', ha, h⟩
    cases ha
    exact h

variable {p : Preset} {rt : Runtime} {opts : Opts} {env : Envelope}

theorem read_eq_ok {r : Reading} : p.read rt opts env = .ok r ↔ ∃ sigTs signed,
      candidates rt.unicode env p.scheme = .ok (r.signatures, sigTs) ∧
      timestamp rt.unicode env p.scheme sigTs opts = .ok r.ts ∧
      signedIodata rt.unicode env (compile rt.unicode p.scheme.signed) r.ts = .ok signed ∧
      signed.flatten = r.message := by
  constructor
  · intro h
    obtain ⟨⟨signatures, sigTs⟩, hcandidates, h⟩ := bind_eq_ok.mp h
    obtain ⟨ts, hts, h⟩ := bind_eq_ok.mp h
    obtain ⟨signed, hsigned, h⟩ := bind_eq_ok.mp h
    cases h
    exact ⟨sigTs, signed, hcandidates, hts, hsigned, rfl⟩
  · rintro ⟨sigTs, signed, hcandidates, hts, hsigned, hmessage⟩
    refine bind_eq_ok.mpr ⟨_, hcandidates, bind_eq_ok.mpr ⟨_, hts, bind_eq_ok.mpr ⟨_, hsigned, ?_⟩⟩⟩
    rw [hmessage]
    rfl

/-- A request is accepted exactly when the options are usable and one of its signatures is the one
    some key gives the message it was taken for. -/
theorem verify_eq_ok : verify rt (.preset p) opts env = .ok () ↔ checkTolerance opts = .ok () ∧
      ∃ r keys, p.read rt opts env = .ok r ∧ secretKeys opts p.scheme = .ok keys ∧
        ∃ key ∈ keys, p.sign rt key r.message ∈ r.signatures := by
  have hmatch : ∀ (keys signatures : List Bin) (signed : List Bin),
      (keys.any fun key => signatures.any (secureCompare · (expected rt p.scheme key signed))) =
      true
        ↔ ∃ key ∈ keys, p.sign rt key signed.flatten ∈ signatures := by
    intro keys signatures signed
    simp only [List.any_eq_true, secureCompare_iff, exists_eq_right]
    rfl
  constructor
  · intro h
    obtain ⟨_, hscheme, h⟩ := bind_eq_ok.mp h
    cases hscheme
    obtain ⟨_, htolerance, h⟩ := bind_eq_ok.mp h
    obtain ⟨⟨signatures, sigTs⟩, hcandidates, h⟩ := bind_eq_ok.mp h
    obtain ⟨ts, hts, h⟩ := bind_eq_ok.mp h
    obtain ⟨signed, hsigned, h⟩ := bind_eq_ok.mp h
    obtain ⟨keys, hkeys, h⟩ := bind_eq_ok.mp h
    refine ⟨htolerance, ⟨signatures, ts, signed.flatten⟩, keys,
      read_eq_ok.mpr ⟨sigTs, signed, hcandidates, hts, hsigned, rfl⟩, hkeys, ?_⟩
    by_contra hnone
    rw [if_neg fun hany => hnone ((hmatch _ _ _).mp hany)] at h
    cases h
  · rintro ⟨htolerance, r, keys, hread, hkeys, hkey⟩
    obtain ⟨sigTs, signed, hcandidates, hts, hsigned, hmessage⟩ := read_eq_ok.mp hread
    refine bind_eq_ok.mpr ⟨_, rfl, bind_eq_ok.mpr ⟨_, htolerance, bind_eq_ok.mpr ⟨_, hcandidates,
      bind_eq_ok.mpr ⟨_, hts, bind_eq_ok.mpr ⟨_, hsigned, bind_eq_ok.mpr ⟨_, hkeys, ?_⟩⟩⟩⟩⟩⟩
    rw [← hmessage] at hkey
    exact if_pos ((hmatch _ _ _).mpr hkey)

end Ankusa.Verifier
