import Ankusa.Lib.Bytes
import Mathlib.Data.List.Lex
import Mathlib.Data.Nat.Digits.Lemmas

set_option autoImplicit false

/-! # Which address a request came from

`Net.ClientIP` reads the forwarded-for chain of a request from a trusted proxy from right to left
and stops at the first entry it cannot read or does not trust: what is to the left of it does not
matter (`resolve_client`). The code tests a range by the order of tuples, which is membership in the
block the operator wrote (`trusted_iff`). -/

namespace Ankusa.ClientIp

open List Option

/-- An address as `:inet` has it: a tuple of four octets or of eight groups. -/
abbrev Ip := List Nat

/-- The order of tuples: the shorter one first, then element by element. -/
def tupleLe (a b : Ip) : Bool := decide (a.length < b.length ∨ a.length = b.length ∧ a ≤ b)

/-- A mapped IPv4 address is the IPv4 address. -/
def normalize : Ip → Ip
  | [0, 0, 0, 0, 0, 0xFFFF, hi, lo] => [hi >>> 8, hi &&& 0xFF, lo >>> 8, lo &&& 0xFF]
  | ip => ip

/-- A trusted block, as its first and last address. -/
structure Cidr where
  first : Ip
  last : Ip

/-- The address is in a trusted block, in the order of tuples. -/
def trusted (proxies : List Cidr) (ip : Ip) : Bool :=
  proxies.any fun cidr => tupleLe cidr.first ip && tupleLe ip cidr.last

/-- The string before the first separator and the string after it. -/
def split (sep : UInt8) (s : List UInt8) : Option (List UInt8 × List UInt8) :=
  if sep ∈ s then some (s.takeWhile (· != sep), (s.dropWhile (· != sep)).tail) else none

/-- A port number. -/
def port (digits : List UInt8) : Bool :=
  digits.length ∈ [1, 2, 3, 4, 5] && digits.all Bytes.isDigit && Bytes.digitsValue digits ≤ 65535

/-- What may follow a bracketed address. -/
def bracketPort : List UInt8 → Bool
  | [] => true
  | c :: digits => c == 58 && port digits

-- `:inet.parse_address` and `String.trim`
variable (inet : List UInt8 → Option Ip) (trim : List UInt8 → List UInt8) (proxies : List Cidr)

/-- An address, normalised. -/
def parse (s : List UInt8) : Option Ip := (inet s).map normalize

/-- An address in brackets, with or without a port, or an IPv4 address and its port. -/
def hostPort : List UInt8 → Option Ip
  | 91 :: rest => do
    let (host, tail) ← split 93 rest
    if 58 ∈ host ∧ bracketPort tail then parse inet host else none
  | entry => do
    let (host, digits) ← split 58 entry
    if port digits then (parse inet host).filter fun ip => ip.length = 4 else none

/-- An entry of the header: an address, with or without a port. -/
def parseEntry (entry : List UInt8) : Option Ip := (parse inet entry).or (hostPort inet entry)

/-- How far the walk is: at the client, or past trusted entries, of which it keeps the leftmost. -/
inductive Walk where
  | client (ip : Ip)
  | trusted (ip : Option Ip)
  | error

/-- One entry of the chain. -/
def hop (entry : List UInt8) : Walk :=
  match parseEntry inet entry with
  | some ip => if trusted proxies ip then .trusted ip else .client ip
  | none => .error

/-- The chain from its right end to the first hop that is not trusted. -/
def walk : List (List UInt8) → Walk
  | [] => .trusted none
  | entry :: rest =>
    match walk rest with
    | .trusted _ => hop inet proxies entry
    | stopped => stopped

/-- The entries of the chain, over all header lines. -/
def entries (headers : List (List UInt8)) : List (List UInt8) :=
  (((intercalate [44] headers).splitOn 44).map trim).filter (· ≠ [])

/-- The client of a request from a trusted peer. -/
def forwarded (headers : List (List UInt8)) (peer : Ip) : Option Ip :=
  if entries trim headers = [] then some peer
  else match walk inet proxies (entries trim headers) with
    | .client ip => some ip
    | .trusted ip => ip
    | .error => none

/-- The client of a request from a peer with these forwarded-for headers. -/
def resolve (remoteIp : Option Ip) (headers : List (List UInt8)) : Option Ip := do
  let peer := normalize (← remoteIp)
  if trusted proxies peer then forwarded inet trim proxies headers peer else some peer

/-! ### Blocks -/

/-- The bits of one part of an address. -/
def width (ip : Ip) : Nat := if ip.length = 4 then 8 else 16

/-- The tuple of an IPv4 or an IPv6 address. -/
def Address (ip : Ip) : Prop := (ip.length = 4 ∨ ip.length = 8) ∧ ∀ part ∈ ip, part < 2 ^ width ip

/-- An address as the number its bits are. -/
def number (ip : Ip) : Nat := Nat.ofDigits (2 ^ width ip) ip.reverse

/-- A range as it is written, `address/mask`. -/
structure Block where
  address : Ip
  mask : Nat

/-- The addresses below one network prefix. -/
def Block.hosts (b : Block) : Nat := 2 ^ (b.address.length * width b.address - b.mask)

/-- The address has the block's prefix. -/
def Block.Contains (b : Block) (ip : Ip) : Prop :=
  ip.length = b.address.length ∧ number ip / b.hosts = number b.address / b.hosts

/-- What `CIDR.parse` makes of a block: its lowest and its highest address. -/
structure Cidr.Spans (c : Cidr) (b : Block) : Prop where
  first : Address c.first ∧ c.first.length = b.address.length
  last : Address c.last ∧ c.last.length = b.address.length
  lowest : number c.first = number b.address / b.hosts * b.hosts
  highest : number c.last + 1 = number c.first + b.hosts

/-- Numerals of one length are in the order of their digits. -/
theorem ofDigits_lt_iff {base : Nat} (hbase : 1 < base) : ∀ {a b : Ip}, a.length = b.length →
    (∀ x ∈ a, x < base) → (∀ x ∈ b, x < base) →
    (Nat.ofDigits base a.reverse < Nat.ofDigits base b.reverse ↔ a < b)
  | [], [], _, _, _ => by simp
  | x :: xs, y :: ys, hlen, ha, hb => by
    obtain ⟨-, hxs⟩ := forall_mem_cons.1 ha
    obtain ⟨-, hys⟩ := forall_mem_cons.1 hb
    have hlen : xs.length = ys.length := by simpa using hlen
    have hx := Nat.ofDigits_lt_base_pow_length hbase (l := xs.reverse) (by simpa using hxs)
    have hy := Nat.ofDigits_lt_base_pow_length hbase (l := ys.reverse) (by simpa using hys)
    rw [length_reverse] at hx hy
    rw [Nat.ofDigits_reverse_cons, Nat.ofDigits_reverse_cons, cons_lt_cons_iff,
      ← ofDigits_lt_iff hbase hlen hxs hys]
    rw [← hlen] at hy ⊢
    rcases Nat.lt_trichotomy x y with hlt | rfl | hlt
    · have := Nat.mul_le_mul_left (base ^ xs.length) (Nat.succ_le_of_lt hlt)
      rw [Nat.mul_succ] at this
      omega
    · omega
    · have := Nat.mul_le_mul_left (base ^ xs.length) (Nat.succ_le_of_lt hlt)
      rw [Nat.mul_succ] at this
      omega

theorem tupleLe_iff {a b : Ip} (ha : Address a) (hb : Address b) (hlen : a.length = b.length) :
    tupleLe a b = true ↔ number a ≤ number b := by
  have hwidth : width b = width a := by simp only [width, hlen]
  have hbase : 1 < 2 ^ width a := Nat.one_lt_two_pow (by unfold width; split <;> decide)
  rw [number, number, hwidth, ← not_lt, ofDigits_lt_iff hbase hlen.symm (hwidth ▸ hb.2) ha.2]
  simp [tupleLe, hlen]

/-- The code's test of a range says whether the address is in the block. -/
theorem Cidr.Spans.contains_iff {c : Cidr} {b : Block} {ip : Ip} (h : c.Spans b)
    (hip : Address ip) : (tupleLe c.first ip && tupleLe ip c.last) = true ↔ b.Contains ip := by
  obtain ⟨⟨hfirst, hfirstLen⟩, ⟨hlast, hlastLen⟩, hlow, hhigh⟩ := h
  have hpos : 0 < b.hosts := Nat.two_pow_pos _
  by_cases hlen : ip.length = b.address.length
  · rw [Bool.and_eq_true, tupleLe_iff hfirst hip (hfirstLen.trans hlen.symm),
      tupleLe_iff hip hlast (hlen.trans hlastLen.symm), Block.Contains, Nat.div_eq_iff hpos]
    omega
  · simp only [tupleLe, Block.Contains, Bool.and_eq_true, decide_eq_true_eq]
    omega

theorem trusted_iff {proxies : List Cidr} {blocks : List Block} {ip : Ip}
    (h : Forall₂ Cidr.Spans proxies blocks)
    (hip : Address ip) : trusted proxies ip = true ↔ ∃ b ∈ blocks, b.Contains ip := by
  induction h with
  | nil => simp [trusted]
  | cons hspans _ ih =>
    simp only [trusted, any_cons, Bool.or_eq_true, hspans.contains_iff hip] at ih ⊢
    rw [ih]
    simp

theorem Address.normalize {ip : Ip} (h : Address ip) : Address (normalize ip) := by
  unfold ClientIp.normalize
  split
  next hi lo =>
    have hparts : ∀ part ∈ [hi, lo], part < 2 ^ 16 :=
      fun part hpart => h.2 part (by simp at hpart ⊢; tauto)
    refine ⟨.inl rfl, ?_⟩
    simp only [width, Nat.shiftRight_eq_div_pow, forall_mem_cons] at hparts ⊢
    have hand : ∀ n, n &&& 255 < 256 := fun n => Nat.and_lt_two_pow n (n := 8) (by decide)
    simp
    exact ⟨by omega, hand _, by omega, hand _⟩
  · exact h

/-- The IPv6 form of an IPv4 address. -/
def mapped (a b c d : Fin 256) : Ip := [0, 0, 0, 0, 0, 0xFFFF, a * 256 + b, c * 256 + d]

theorem normalize_mapped (a b c d : Fin 256) :
    normalize (mapped a b c d) = normalize [a.val, b.val, c.val, d.val] := by
  have hand : ∀ n, n &&& 255 = n % 256 := fun n => Nat.and_two_pow_sub_one_eq_mod n 8
  have hplain : normalize [a.val, b.val, c.val, d.val] = [a.val, b.val, c.val, d.val] := by
    simp [normalize]
  rw [hplain]
  simp only [mapped, normalize, Nat.shiftRight_eq_div_pow, hand, List.cons.injEq, and_true]
  omega

/-- One IPv4 address, as it is or mapped. -/
def Forms (a b c d : Fin 256) (ip : Ip) : Prop :=
  ip = [a.val, b.val, c.val, d.val] ∨ ip = mapped a b c d

/-- The same address, or two forms of one IPv4 address. -/
def Same (ip ip' : Ip) : Prop := ip = ip' ∨ ∃ a b c d, Forms a b c d ip ∧ Forms a b c d ip'

theorem Same.normalize {ip ip' : Ip} (h : Same ip ip') : normalize ip = normalize ip' := by
  have hforms : ∀ {a b c d ip}, Forms a b c d ip →
      ClientIp.normalize ip = ClientIp.normalize [a.val, b.val, c.val, d.val] := by
    rintro a b c d ip (rfl | rfl)
    · rfl
    · exact normalize_mapped a b c d
  rcases h with rfl | ⟨a, b, c, d, hip, hip'⟩
  · rfl
  · rw [hforms hip, hforms hip']

/-- What an entry stands for: an address as it is, one in brackets with or without a port, or an
    IPv4 address and its port. -/
inductive Stands : List UInt8 → Ip → Prop
  | bare {entry ip} (h : inet entry = some ip) : Stands entry ip
  | bracketed {host tail ip} (hbare : inet (91 :: (host ++ 93 :: tail)) = none)
    (h : inet host = some ip) (hcolon : 58 ∈ host) (hclosed : 93 ∉ host)
    (hport : bracketPort tail = true) :
    Stands (91 :: (host ++ 93 :: tail)) ip
  | ported {c host digits ip} (hbare : inet (c :: host ++ 58 :: digits) = none)
    (h : inet (c :: host) = some ip) (hlen : ip.length = 4) (hcolon : 58 ∉ c :: host)
    (hopen : c ≠ 91) (hport : port digits = true) :
    Stands (c :: host ++ 58 :: digits) ip

theorem split_append {sep : UInt8} {s rest : List UInt8} (h : sep ∉ s) :
    split sep (s ++ sep :: rest) = some (s, rest) := by
  have hne : ∀ c ∈ s, (c != sep) = true := fun c hc => by
    simp only [bne_iff_ne]
    rintro rfl
    exact h hc
  simp [split, takeWhile_append_of_pos hne, dropWhile_append_of_pos hne]

variable {inet}

theorem parseEntry_of_stands {entry : List UInt8} {ip : Ip} (h : Stands inet entry ip) :
    parseEntry inet entry = some (normalize ip) := by
  cases h with
  | bare h => simp [parseEntry, parse, h]
  | bracketed hbare h hcolon hclosed hport =>
    simp [parseEntry, parse, hbare, hostPort, split_append hclosed, hcolon, hport, h]
  | ported hbare h hlen hcolon hopen hport =>
    have hplain : normalize ip = ip := by
      unfold normalize
      split
      · cases hlen
      · rfl
    rw [parseEntry, parse, hbare, Option.map_none, Option.none_or, cons_append,
      hostPort.eq_2 _ _ (by simpa using hopen), ← cons_append, split_append hcolon]
    simp [hport, parse, h, hplain, hlen]

theorem parseEntry_address {entry : List UInt8} {ip : Ip}
    (hinet : ∀ text ip, inet text = some ip → Address ip)
    (h : parseEntry inet entry = some ip) : Address ip := by
  have hparse : ∀ {text ip}, parse inet text = some ip → Address ip := fun h => by
    obtain ⟨ip', hip', rfl⟩ := Option.map_eq_some_iff.1 h
    exact (hinet _ _ hip').normalize
  rcases Option.or_eq_some_iff.1 h with h | ⟨-, h⟩
  · exact hparse h
  unfold hostPort at h
  split at h
  · obtain ⟨_, -, h⟩ := Option.bind_eq_some_iff.1 h
    exact hparse (Option.ite_none_right_eq_some.1 h).2
  · obtain ⟨_, -, h⟩ := Option.bind_eq_some_iff.1 h
    exact hparse (Option.filter_eq_some_iff.1 (Option.ite_none_right_eq_some.1 h).2).1

/-- The walk knows the entries only by the addresses they are read as. -/
theorem walk_congr {es es' : List (List UInt8)}
    (h : Forall₂ (fun e e' => parseEntry inet e = parseEntry inet e') es es') :
    walk inet proxies es = walk inet proxies es' := by
  induction h with
  | nil => rfl
  | cons heq _ ih => simp only [walk, ih, hop, heq]

variable {proxies} {entry : List UInt8}
  (h : ∀ ip, parseEntry inet entry = some ip → trusted proxies ip = false)
  (left right : List (List UInt8))
include h

theorem walk_stops (ip : Option Ip) : walk inet proxies (entry :: right) ≠ .trusted ip := by
  rw [walk]
  cases walk inet proxies right with
  | client | error => nofun
  | trusted =>
    unfold hop
    cases hentry : parseEntry inet entry with
    | none => nofun
    | some ip' => simp [h ip' hentry]

/-- An entry that cannot be read or is not trusted ends the walk, whatever is to the left of it. -/
theorem walk_append :
    walk inet proxies (left ++ entry :: right) = walk inet proxies (entry :: right) := by
  induction left with
  | nil => rfl
  | cons e left ih =>
    rw [cons_append, walk, ih]
    cases hw : walk inet proxies (entry :: right) with
    | client | error => rfl
    | trusted ip => exact absurd hw (walk_stops h right ip)

omit h

/-- **The client of a request.** The ranges are the blocks the operator wrote. Requests from one
    peer whose chains agree from an entry on that cannot be read or is in no block have the same
    client; a peer outside the blocks is its own client; and the forms of one IPv4 address are
    treated alike, for a peer and anywhere in a chain. -/
theorem resolve_client (inet : List UInt8 → Option Ip) (trim : List UInt8 → List UInt8)
    (proxies : List Cidr) (blocks : List Block) (hparsed : Forall₂ Cidr.Spans proxies blocks)
    (hinet : ∀ text ip, inet text = some ip → Address ip) :
    (∀ ip, Address ip → (trusted proxies ip = true ↔ ∃ b ∈ blocks, b.Contains ip)) ∧
    (∀ peer headers headers' left left' entry right, entries trim headers = left ++ entry :: right →
      entries trim headers' = left' ++ entry :: right →
      (∀ ip, parseEntry inet entry = some ip → ∀ b ∈ blocks, ¬ b.Contains ip) →
      resolve inet trim proxies peer headers = resolve inet trim proxies peer headers') ∧
    (∀ peer headers, Address peer → (∀ b ∈ blocks, ¬ b.Contains (normalize peer)) →
      resolve inet trim proxies (some peer) headers = some (normalize peer)) ∧
    ∀ peer peer' headers headers', Same peer peer' →
      Forall₂ (fun e e' => e = e' ∨ ∃ ip ip', Stands inet e ip ∧ Stands inet e' ip' ∧ Same ip ip')
        (entries trim headers) (entries trim headers') →
      resolve inet trim proxies (some peer) headers =
      resolve inet trim proxies (some peer') headers' := by
  have hout : ∀ {ip}, Address ip → (∀ b ∈ blocks, ¬ b.Contains ip) → trusted proxies ip = false :=
    fun hip hnone =>
    Bool.eq_false_iff.2 fun htrusted =>
      let ⟨b, hb, hcontains⟩ := (trusted_iff hparsed hip).1 htrusted
      hnone b hb hcontains
  refine ⟨fun ip => trusted_iff hparsed,
    fun peer headers headers' left left' entry right hl hr h => ?_,
    fun peer headers hpeer hnone => ?_, fun peer peer' headers headers' hpeer hchain => ?_⟩
  · have hstop : ∀ ip, parseEntry inet entry = some ip → trusted proxies ip = false := fun ip hip =>
      hout (parseEntry_address hinet hip) (h ip hip)
    have hsame : forwarded inet trim proxies headers = forwarded inet trim proxies headers' := by
      funext
      simp [forwarded, hl, hr, walk_append hstop]
    simp only [resolve, hsame]
  · simp [resolve, hout hpeer.normalize hnone]
  · have hread := hchain.imp fun e e' he => show parseEntry inet e = parseEntry inet e' by
      rcases he with rfl | ⟨ip, ip', hip, hip', hsame⟩
      · rfl
      · rw [parseEntry_of_stands hip, parseEntry_of_stands hip', hsame.normalize]
    have hempty : entries trim headers = [] ↔ entries trim headers' = [] := by
      rw [← length_eq_zero_iff, ← length_eq_zero_iff, hread.length_eq]
    simp only [resolve, forwarded, hempty, walk_congr proxies hread, Option.bind_eq_bind,
      Option.bind_some, hpeer.normalize]

/-- `9`, which is 0.0.0.9, and its mapped form. -/
def reads (text : List UInt8) : Option Ip :=
  if text = [57] then some [0, 0, 0, 9]
  else if text = [58, 58, 102, 102, 102, 102, 58, 48, 58, 57] then some (mapped 0 0 0 9) else none

/-- `10.0.0.0/8`. -/
def private8 : Cidr := ⟨[10, 0, 0, 0], [10, 255, 255, 255]⟩

/-- Behind a proxy of the block, `x,9` is the client that `9` is, and so is `[::ffff:0:9]:80`; and
    `9` itself is not asked for another. -/
theorem forged_and_mapped :
    resolve reads id [private8] (some [10, 0, 0, 1]) [[120], [57]] =
      resolve reads id [private8] (some [10, 0, 0, 1]) [[57]] ∧
    resolve reads id [private8] (some [10, 0, 0, 1]) [[57]] = resolve reads id [private8]
    (some (mapped 10 0 0 1))
      [[91, 58, 58, 102, 102, 102, 102, 58, 48, 58, 57, 93, 58, 56, 48]] ∧
    resolve reads id [private8] (some [0, 0, 0, 9]) [[57]] = some [0, 0, 0, 9] := by
  have hparsed : Forall₂ Cidr.Spans [private8] [⟨[10, 0, 0, 0], 8⟩] :=
    .cons ⟨⟨⟨.inl rfl, by decide⟩, rfl⟩, ⟨⟨.inl rfl, by decide⟩, rfl⟩,
      by decide +kernel, by decide +kernel⟩ .nil
  have hinet : ∀ text ip, reads text = some ip → Address ip := fun text ip h => by
    unfold reads at h
    split at h
    · cases h
      exact ⟨.inl rfl, by decide⟩
    split at h
    · cases h
      exact ⟨.inr rfl, by decide⟩
    · cases h
  have hnine : ¬ Block.Contains ⟨[10, 0, 0, 0], 8⟩ [0, 0, 0, 9] :=
    fun h => absurd h.2 (by decide +kernel)
  obtain ⟨-, hforged, hpeer, hmapped⟩ := resolve_client reads id [private8] _ hparsed hinet
  refine ⟨hforged (some [10, 0, 0, 1]) [[120], [57]] [[57]] [[120]] [] [57] [] (by decide)
    (by decide) ?_, hmapped _ _ _ _ (.inr ⟨10, 0, 0, 1, .inl rfl, .inr rfl⟩) ?_, ?_⟩
  · intro ip hip b hb
    obtain rfl : b = _ := mem_singleton.1 hb
    obtain rfl : [0, 0, 0, 9] = ip := Option.some.inj hip
    exact hnine
  · have hbracketed :=
      @Stands.bracketed reads [58, 58, 102, 102, 102, 102, 58, 48, 58, 57] [58, 56, 48]
      (mapped 0 0 0 9) (by decide) (by decide) (by decide) (by decide) (by decide)
    exact .cons (.inr ⟨_, _, .bare rfl, hbracketed, .inr ⟨0, 0, 0, 9, .inl rfl, .inr rfl⟩⟩) .nil
  · exact hpeer [0, 0, 0, 9] _ ⟨.inl rfl, by decide⟩ fun b hb => mem_singleton.1 hb ▸ hnine

end Ankusa.ClientIp
