import Mathlib.Data.List.Basic
import Mathlib.Data.List.TakeWhile

set_option autoImplicit false

/-! # Byte strings: separators, hexadecimal, Base64 and decimal prefixes

What text protocols do with bytes, over lists of `UInt8`: cut a string at a separator, write bytes
in hexadecimal or Base64 and read them back, and read the integer a string starts with. The two
facts everything else rests on: two cuts of one string at the same separator differ by a piece that
holds that separator (`cut_cases`), and a byte that is neither a digit nor a sign ends a number,
whatever follows it (`leadingInt_append_cons`). -/

namespace Bytes

open List Option

/-- The bytes of a text, one for each character (an ASCII literal). -/
def ascii (text : String) : List UInt8 := text.toList.map fun c => UInt8.ofNat c.toNat

/-! ## Cutting at a separator -/

section Cut
variable {α : Type*} {sep : α} {s a b : List α}

theorem notMem_of_mem_splitOn [BEq α] [LawfulBEq α] {piece : List α} (h : piece ∈ s.splitOn sep) :
    sep ∉ piece := by
  induction s generalizing piece with
  | nil =>
    rw [splitOn_nil, mem_singleton] at h
    rw [h]
    exact not_mem_nil
  | cons c s ih =>
    rw [splitOn_cons_eq_if_modifyHead] at h
    by_cases hc : c == sep
    · rw [if_pos hc, mem_cons] at h
      rcases h with rfl | h
      · exact not_mem_nil
      · exact ih h
    · rw [if_neg hc] at h
      -- only the first piece grows, by a byte that is not the separator
      obtain ⟨first, rest, hs⟩ := exists_cons_of_ne_nil (splitOn_ne_nil sep s)
      rw [hs, modifyHead_cons, mem_cons] at h
      rcases h with rfl | h
      · have hfirst : sep ∉ first := ih (hs ▸ mem_cons_self ..)
        have hne : sep ≠ c := fun heq => hc (beq_iff_eq.mpr heq.symm)
        simp [hne, hfirst]
      · exact ih (hs ▸ mem_cons_of_mem _ h)

/-- Two pieces without the separator, joined by it, are cut apart again. -/
theorem splitOn_append_cons [BEq α] [LawfulBEq α] (ha : sep ∉ a)
    (hb : sep ∉ b) : (a ++ sep :: b).splitOn sep = [a, b] := by
  have h : ([sep].intercalate [a, b]).splitOn sep = [a, b] :=
    splitOn_intercalate sep (by simp [ha, hb]) (by simp)
  simpa [List.intercalate] using h

/-- Two cuts of one string at the same separator: the same cut, or one of them falls inside what
    the other took for a piece. -/
theorem cut_cases {c d : List α} (h : a ++ sep :: b = c ++ sep :: d) :
    (a = c ∧ b = d) ∨ (∃ m, c = a ++ sep :: m ∧ b = m ++ sep :: d) ∨
      (∃ m, a = c ++ sep :: m ∧ d = m ++ sep :: b) := by
  rcases append_eq_append_iff.mp h with ⟨m, rfl, hm⟩ | ⟨m, rfl, hm⟩
  · cases m with
    | nil =>
      rw [nil_append, List.cons.injEq] at hm
      exact .inl ⟨(append_nil a).symm, hm.2⟩
    | cons x m =>
      rw [cons_append, List.cons.injEq] at hm
      exact .inr (.inl ⟨m, by rw [hm.1], hm.2⟩)
  · cases m with
    | nil =>
      rw [nil_append, List.cons.injEq] at hm
      exact .inl ⟨append_nil c, hm.2.symm⟩
    | cons x m =>
      rw [cons_append, List.cons.injEq] at hm
      exact .inr (.inr ⟨m, by rw [hm.1], hm.2⟩)

/-- When a cut is the only one whose first piece meets `P`, a property a longer piece passes on to
    the piece before a separator of it: the first piece holds no separator, and no separator of the
    second gives a longer first piece with the property. -/
theorem cut_unique_iff (P : List α → Prop) (hP : ∀ a m, P (a ++ sep :: m) → P a) (ha : P a) :
    (∀ c d, a ++ sep :: b = c ++ sep :: d → P c → c = a ∧ d = b) ↔
      sep ∉ a ∧ ∀ m rest, b = m ++ sep :: rest → ¬ P (a ++ sep :: m) := by
  constructor
  · intro hunique
    refine ⟨fun hmem => ?_, fun m rest hb hm => ?_⟩
    · obtain ⟨c, m, rfl⟩ := append_of_mem hmem
      have hc := (hunique c (m ++ sep :: b) (by simp) (hP c m ha)).1
      simp at hc
    · have hc := (hunique (a ++ sep :: m) rest (by simp [hb]) hm).1
      simp at hc
  · rintro ⟨hsep, hrest⟩ c d heq hc
    rcases cut_cases heq with ⟨rfl, rfl⟩ | ⟨m, rfl, hb⟩ | ⟨m, rfl, _⟩
    · exact ⟨rfl, rfl⟩
    · exact absurd hc (hrest m d hb)
    · exact absurd (by simp) hsep

theorem cut_alone_iff : (∀ c d, a ++ sep :: b = c ++ sep :: d → c = a ∧ d = b) ↔
    sep ∉ a ∧ sep ∉ b := by
  have hcuts : sep ∉ b ↔ ∀ m rest, b = m ++ sep :: rest → ¬ True := by
    refine ⟨fun h m rest hb _ => h (hb ▸ by simp), fun h hmem => ?_⟩
    obtain ⟨m, rest, hb⟩ := append_of_mem hmem
    exact h m rest hb trivial
  rw [hcuts, ← cut_unique_iff (fun _ => True) (fun _ _ _ => trivial) trivial]
  exact ⟨fun h c d heq _ => h c d heq, fun h c d heq => h c d heq trivial⟩

/-- Before the first `stop` there is no separator: every separator has a `stop` before it. -/
theorem notMem_takeWhile_iff [BEq α] [LawfulBEq α] {stop : α} (hne : sep ≠ stop) :
    sep ∉ s.takeWhile (· != stop) ↔ ∀ m rest, s = m ++ sep :: rest → stop ∈ m := by
  constructor
  · intro hnone m rest hs
    by_contra hstop
    apply hnone
    have hm : ∀ c ∈ m, (c != stop) = true := fun c hc => bne_iff_ne.mpr fun heq => hstop (heq ▸ hc)
    rw [hs, takeWhile_append_of_pos hm]
    simp [hne]
  · intro hcuts hmem
    obtain ⟨m, rest, hm⟩ := append_of_mem hmem
    have hs : s = m ++ sep :: (rest ++ s.dropWhile (· != stop)) := by
      conv_lhs => rw [← takeWhile_append_dropWhile (l := s), hm]
      simp
    have hstop : stop ∈ s.takeWhile (· != stop) := hm ▸ mem_append_left _ (hcuts m _ hs)
    have hself : (stop != stop) = true := mem_takeWhile_imp (p := (· != stop)) hstop
    exact absurd rfl (bne_iff_ne.mp hself)

end Cut

/-! ## Hexadecimal -/

/-- A digit of lower-case hexadecimal. -/
def hexDigit (n : Nat) : UInt8 := UInt8.ofNat (if n < 10 then 48 + n else 87 + n)

/-- Lower-case hexadecimal. -/
def encode16 : List UInt8 → List UInt8
  | [] => []
  | b :: rest => hexDigit (b.toNat / 16) :: hexDigit (b.toNat % 16) :: encode16 rest

variable {n : Nat}

theorem hexDigit_inj {m : Nat} (hm : m < 16) (hn : n < 16) (h : hexDigit m = hexDigit n) :
    m = n := by
  have hall : ∀ i j : Fin 16, hexDigit i.val = hexDigit j.val → i = j := by decide +kernel
  exact congrArg Fin.val (hall ⟨m, hm⟩ ⟨n, hn⟩ h)

theorem encode16_injective : Function.Injective encode16 := by
  intro xs
  induction xs with
  | nil =>
    intro ys h
    cases ys with
    | nil => rfl
    | cons => cases h
  | cons x xs ih =>
    intro ys h
    cases ys with
    | nil => cases h
    | cons y =>
      have hx := x.toNat_lt
      have hy := y.toNat_lt
      simp only [encode16, List.cons.injEq] at h
      obtain ⟨hhigh, hlow, hrest⟩ := h
      have hdiv := hexDigit_inj (by omega) (by omega) hhigh
      have hmod := hexDigit_inj (by omega) (by omega) hlow
      have hnat : x.toNat = y.toNat := by omega
      rw [UInt8.toNat_inj.mp hnat, ih hrest]

/-! ## Base64 -/

/-- The Base64 letter of a number below 64. -/
def letter64 (n : Nat) : UInt8 :=
  UInt8.ofNat (if n < 26 then 65 + n else if n < 52 then 71 + n else if n < 62 then n - 4
    else if n = 62 then 43 else 47)

/-- The number a Base64 letter stands for. -/
def value64 (c : UInt8) : Option Nat :=
  let n := c.toNat
  if 65 ≤ n ∧ n ≤ 90 then some (n - 65)
  else if 97 ≤ n ∧ n ≤ 122 then some (n - 71)
  else if 48 ≤ n ∧ n ≤ 57 then some (n + 4)
  else if n = 43 then some 62
  else if n = 47 then some 63
  else none

/-- The byte that pads the last group. -/
def pad64 : UInt8 := 61

/-- Base64 with padding. -/
def encode64 : List UInt8 → List UInt8
  | [] => []
  | [a] => [letter64 (a.toNat / 4), letter64 (a.toNat % 4 * 16), pad64, pad64]
  | [a, b] =>
    [letter64 (a.toNat / 4), letter64 (a.toNat % 4 * 16 + b.toNat / 16),
      letter64 (b.toNat % 16 * 4), pad64]
  | a :: b :: c :: rest =>
    letter64 (a.toNat / 4) :: letter64 (a.toNat % 4 * 16 + b.toNat / 16) ::
      letter64 (b.toNat % 16 * 4 + c.toNat / 64) :: letter64 (c.toNat % 64) :: encode64 rest

/-- The bytes of one group of four letters, the last group padded. -/
def group64 (last : Bool) (a b c d : UInt8) : Option (List UInt8) := do
  let v ← value64 a
  let w ← value64 b
  let first := UInt8.ofNat (v * 4 + w / 16)
  if last && c == pad64 && d == pad64 then return [first]
  let x ← value64 c
  let second := UInt8.ofNat (w % 16 * 16 + x / 4)
  if last && d == pad64 then return [first, second]
  let y ← value64 d
  return [first, second, UInt8.ofNat (x % 4 * 64 + y)]

/-- Read padded Base64; anything else does not decode. -/
def decode64 : List UInt8 → Option (List UInt8)
  | [] => some []
  | a :: b :: c :: d :: rest => do
    let group ← group64 rest.isEmpty a b c d
    let tail ← decode64 rest
    return group ++ tail
  | _ => none

theorem value64_letter64 (h : n < 64) : value64 (letter64 n) = some n := by
  have hall : ∀ i : Fin 64, value64 (letter64 i.val) = some i.val := by decide +kernel
  exact hall ⟨n, h⟩

theorem letter64_beq_pad (h : n < 64) : (letter64 n == pad64) = false := by
  refine beq_false_of_ne fun heq => ?_
  have hsome := value64_letter64 h
  rw [heq] at hsome
  exact absurd hsome (by simp [value64, pad64])

theorem ofNat_eq_of_toNat {b : UInt8} (h : n = b.toNat) : UInt8.ofNat n = b := by
  rw [h, UInt8.ofNat_toNat]

theorem group64_one (a : UInt8) :
    group64 true (letter64 (a.toNat / 4)) (letter64 (a.toNat % 4 * 16)) pad64 pad64 = some [a] := by
  have ha := a.toNat_lt
  unfold group64
  simp (disch := omega) only [Option.bind_eq_bind, value64_letter64, bind_some,
    ofNat_eq_of_toNat (b := a)]
  rfl

theorem group64_two (a b : UInt8) : group64 true (letter64 (a.toNat / 4))
    (letter64 (a.toNat % 4 * 16 + b.toNat / 16))
      (letter64 (b.toNat % 16 * 4)) pad64 = some [a, b] := by
  have ha := a.toNat_lt
  have hb := b.toNat_lt
  unfold group64
  simp (disch := omega) only [Option.bind_eq_bind, value64_letter64, bind_some,
    ofNat_eq_of_toNat (b := a), ofNat_eq_of_toNat (b := b), letter64_beq_pad]
  rfl

theorem group64_three (last : Bool) (a b c : UInt8) :
    group64 last (letter64 (a.toNat / 4)) (letter64 (a.toNat % 4 * 16 + b.toNat / 16))
      (letter64 (b.toNat % 16 * 4 + c.toNat / 64)) (letter64 (c.toNat % 64)) = some [a, b, c] := by
  have ha := a.toNat_lt
  have hb := b.toNat_lt
  have hc := c.toNat_lt
  unfold group64
  simp (disch := omega) only [Option.bind_eq_bind, value64_letter64, bind_some,
    ofNat_eq_of_toNat (b := a),
    ofNat_eq_of_toNat (b := b), ofNat_eq_of_toNat (b := c), letter64_beq_pad, Bool.and_false]
  rfl

theorem decode64_encode64 (bytes : List UInt8) : decode64 (encode64 bytes) = some bytes := by
  fun_induction encode64 bytes with
  | case1 => rfl
  | case2 => simp only [decode64, isEmpty_nil, group64_one]; rfl
  | case3 => simp only [decode64, isEmpty_nil, group64_two]; rfl
  | case4 a b c rest ih => simp only [decode64, group64_three, ih]; rfl

theorem encode64_injective : Function.Injective encode64 := by
  intro xs ys h
  have hxs := decode64_encode64 xs
  rw [h, decode64_encode64] at hxs
  exact (some.inj hxs).symm

/-! ## The integer a string starts with -/

/-- A decimal digit. -/
def isDigit (c : UInt8) : Bool := decide (48 ≤ c.toNat ∧ c.toNat ≤ 57)

/-- A sign. -/
def isSign (c : UInt8) : Bool := c == 43 || c == 45

/-- The number a run of digits writes. -/
def digitsValue (digits : List UInt8) : Nat :=
  digits.foldl (fun n c => n * 10 + (c.toNat - 48)) 0

/-- The digits a string starts with, as a number, and the rest. -/
def parseDigits (s : List UInt8) : Option (Nat × List UInt8) :=
  if s.takeWhile isDigit = [] then none
  else some (digitsValue (s.takeWhile isDigit), s.dropWhile isDigit)

/-- The integer a string starts with, an optional sign and at least one digit, and the rest. -/
def parseInt : List UInt8 → Option (Int × List UInt8)
  | 45 :: rest => (parseDigits rest).map fun (n, tail) => (-(n : Int), tail)
  | 43 :: rest => (parseDigits rest).map fun (n, tail) => ((n : Int), tail)
  | s => (parseDigits s).map fun (n, tail) => ((n : Int), tail)

/-- The integer alone. -/
def leadingInt (s : List UInt8) : Option Int := (parseInt s).map Prod.fst

/-- The digits a string starts with, without the rest. -/
def leadingNat (s : List UInt8) : Option Nat := (parseDigits s).map Prod.fst

theorem leadingInt_eq (s : List UInt8) : leadingInt s = match s with
    | 45 :: rest => (leadingNat rest).map fun n : Nat => -(n : Int)
    | 43 :: rest => (leadingNat rest).map fun n : Nat => (n : Int)
    | s => (leadingNat s).map fun n : Nat => (n : Int) := by
  unfold leadingInt leadingNat parseInt
  split <;> rw [Option.map_map, Option.map_map] <;> rfl

variable {c : UInt8}

theorem leadingNat_append_cons (hc : isDigit c = false) (s t : List UInt8) :
    leadingNat (s ++ c :: t) = leadingNat s := by
  have htake : (s ++ c :: t).takeWhile isDigit = s.takeWhile isDigit := by
    induction s with
    | nil => simp [hc]
    | cons x s ih => by_cases hx : isDigit x <;> simp [hx, ih]
  unfold leadingNat parseDigits
  rw [htake]
  split <;> rfl

/-- A byte that is neither a digit nor a sign ends the number, whatever follows. -/
theorem leadingInt_append_cons (hc : isDigit c = false) (hs : isSign c = false)
    (s t : List UInt8) : leadingInt (s ++ c :: t) = leadingInt s := by
  have hminus : c ≠ 45 := by rintro rfl; exact absurd hs (by decide)
  have hplus : c ≠ 43 := by rintro rfl; exact absurd hs (by decide)
  cases s with
  | nil =>
    have hnone : leadingNat (c :: t) = none := leadingNat_append_cons hc [] t
    rw [nil_append, leadingInt_eq]
    split
    · rename_i heq; exact absurd (List.cons.inj heq).1 hminus
    · rename_i heq; exact absurd (List.cons.inj heq).1 hplus
    · rw [hnone]; rfl
  | cons x s =>
    rw [leadingInt_eq, leadingInt_eq (x :: s)]
    by_cases hx : x = 45
    · subst hx; simp [leadingNat_append_cons hc]
    · by_cases hx' : x = 43
      · subst hx'; simp [leadingNat_append_cons hc]
      · have happ := leadingNat_append_cons hc (x :: s) t
        rw [cons_append] at happ ⊢
        simp [hx, hx', happ]

theorem leadingInt_eq_of_cut (hc : isDigit c = false) (hs : isSign c = false)
    {a b m n : List UInt8} (h : a ++ c :: b = m ++ c :: n) : leadingInt a = leadingInt m := by
  rw [← leadingInt_append_cons hc hs a b, h, leadingInt_append_cons hc hs]

end Bytes
