import LeaseQueue.Text.Base64
import Mathlib.Data.Nat.Bitwise
import Mathlib.Tactic.Linarith
import Mathlib.Tactic.SplitIfs

/-
  Base64: what is written is the standard text, and nothing else is read.

  `standard` is the text of RFC 4648, section 4, by the bits: they are cut into
  groups of six, the last one filled up with zeros, each group is written as a
  digit, and pads bring the text to a multiple of four. The arithmetic of
  `encode` comes to the same text, and `decode` reads exactly the texts that
  `encode` writes: one with a pad missing, with a pad elsewhere, or with a bit
  left over is none of them.
-/

namespace LeaseQueue.Base64

variable {c w x y z : Char} {n : Nat} {text : List Char} {bytes : List UInt8}

/-! ## Digits -/

example : String.ofList ((List.range 64).map digit) =
    "ABCDEFGHIJKLMNOPQRSTUVWXYZabcdefghijklmnopqrstuvwxyz0123456789+/" := by decide

theorem char_le_iff {c d : Char} : c ≤ d ↔ c.toNat ≤ d.toNat := by
  rw [Char.le_def, UInt32.le_iff_toNat_le]
  rfl

theorem value?_eq_some_iff : value? c = some n ↔ n < 64 ∧ c = digit n := by
  constructor
  · intro h
    have hc : Char.ofNat c.toNat = c := Char.ofNat_toNat c
    simp only [value?, char_le_iff, Char.reduceToNat] at h
    split_ifs at h with upper lower numeral <;> cases h
    · rw [digit, if_pos (by omega), Nat.sub_add_cancel upper.1]
      exact ⟨by omega, hc.symm⟩
    · have hplace : c.toNat - 71 + 71 = c.toNat := by omega
      rw [digit, if_neg (by omega), if_pos (by omega), hplace]
      exact ⟨by omega, hc.symm⟩
    · rw [digit, if_neg (by omega), if_neg (by omega), if_pos (by omega), Nat.add_sub_cancel]
      exact ⟨by omega, hc.symm⟩
    · exact ⟨by omega, ‹c = '+'›⟩
    · exact ⟨by omega, ‹c = '/'›⟩
  · rintro ⟨h, rfl⟩
    exact value?_digit n h

/-! ## The standard text -/

def bitsOf (b : UInt8) : List Bool := [7, 6, 5, 4, 3, 2, 1, 0].map b.toNat.testBit

/-- The number that six bits stand for, the highest first. -/
def sextet (p q r s t u : Bool) : Nat :=
  p.toNat * 32 + q.toNat * 16 + r.toNat * 8 + s.toNat * 4 + t.toNat * 2 + u.toNat

/-- Bits in groups of six, the last one filled up with zeros. -/
def sextets : List Bool → List Nat
  | p :: q :: r :: s :: t :: u :: rest => sextet p q r s t u :: sextets rest
  | [p, q, r, s, t] => [sextet p q r s t false]
  | [p, q, r, s] => [sextet p q r s false false]
  | [p, q, r] => [sextet p q r false false false]
  | [p, q] => [sextet p q false false false false]
  | [p] => [sextet p false false false false false]
  | [] => []

/-- As many pads as bring a number of digits to a multiple of four. -/
def padding (digits : Nat) : List Char := List.replicate ((4 - digits % 4) % 4) '='

/-- The text of some bytes. -/
def standard (bytes : List UInt8) : List Char :=
  let groups := sextets (bytes.flatMap bitsOf)
  groups.map digit ++ padding groups.length

example : standard [102, 111, 111, 98] = "Zm9vYg==".toList := by decide

theorem padding_add_four (n : Nat) : padding (n + 4) = padding n := by
  rw [padding, padding, Nat.add_mod_right]

theorem sextets_one (a : UInt8) : sextets (bitsOf a) = [a.toNat / 4, a.toNat % 4 * 16] := by
  have ha : a.toNat < 256 := a.toNat_lt
  simp only [bitsOf, List.map, sextets, sextet, Nat.toNat_testBit, Bool.toNat_false,
    List.cons.injEq, and_true]
  refine ⟨?_, ?_⟩ <;> omega

theorem sextets_two (a b : UInt8) :
    let n := a.toNat * 256 + b.toNat
    sextets (bitsOf a ++ bitsOf b) = [n / 1024, n / 16 % 64, n % 16 * 4] := by
  have ha : a.toNat < 256 := a.toNat_lt
  have hb : b.toNat < 256 := b.toNat_lt
  simp only [bitsOf, List.map, List.cons_append, List.nil_append, sextets, sextet,
    Nat.toNat_testBit, Bool.toNat_false, List.cons.injEq, and_true]
  refine ⟨?_, ?_, ?_⟩ <;> omega

theorem sextets_three (a b c : UInt8) (rest : List Bool) :
    let n := a.toNat * 65536 + b.toNat * 256 + c.toNat
    sextets (bitsOf a ++ (bitsOf b ++ (bitsOf c ++ rest))) =
      n / 262144 :: n / 4096 % 64 :: n / 64 % 64 :: n % 64 :: sextets rest := by
  have ha : a.toNat < 256 := a.toNat_lt
  have hb : b.toNat < 256 := b.toNat_lt
  have hc : c.toNat < 256 := c.toNat_lt
  simp only [bitsOf, List.map, List.cons_append, List.nil_append, sextets, sextet,
    Nat.toNat_testBit, List.cons.injEq, and_true]
  refine ⟨?_, ?_, ?_, ?_⟩ <;> omega

/-- What is written is the standard text. -/
theorem encode_eq_standard (bytes : List UInt8) : encode bytes = standard bytes := by
  induction bytes using encode.induct with
  | case1 => rfl
  | case2 a =>
    simp only [standard, List.flatMap_cons, List.flatMap_nil, List.append_nil, sextets_one]
    rfl
  | case3 a b =>
    simp only [standard, List.flatMap_cons, List.flatMap_nil, List.append_nil, sextets_two]
    rfl
  | case4 a b c rest ih =>
    rw [encode, ih]
    simp only [standard, List.flatMap_cons, sextets_three, List.map_cons, List.cons_append,
      List.length_cons, Nat.add_assoc, Nat.reduceAdd, padding_add_four]

/-! ## Reading back

  A group is a number below 2²⁴, of four digits in base 64 and of three bytes in
  base 256. -/

theorem sum_of_places (n p q : Nat) : n / (p * q) * (p * q) + n / p % q * p + n % p = n := by
  have h := Nat.div_add_mod' n (p * q)
  rw [Nat.mod_mul] at h
  linarith

theorem sum_of_digits (n : Nat) :
    n / 262144 * 262144 + n / 4096 % 64 * 4096 + n / 64 % 64 * 64 + n % 64 = n := by
  have hlow := sum_of_places n 64 64
  have hhigh := Nat.div_add_mod' (n / 4096) 64
  simp only [Nat.div_div_eq_div_mul, Nat.reduceMul] at hlow hhigh
  linarith

/-- The low eight bits of a number are those of its last byte. -/
theorem ofNat_add_byte (n : Nat) (b : UInt8) : UInt8.ofNat (n * 256 + b.toNat) = b := by
  have hb : b.toNat < 256 := b.toNat_lt
  refine UInt8.toNat_inj.mp ?_
  rw [UInt8.toNat_ofNat', Nat.mul_comm, Nat.mul_add_mod, Nat.mod_eq_of_lt hb]

theorem decode_encode (bytes : List UInt8) : decode (encode bytes) = some bytes := by
  induction bytes using encode.induct with
  | case1 => rfl
  | case2 a =>
    have ha : a.toNat < 256 := a.toNat_lt
    have hn : a.toNat / 4 * 64 + a.toNat % 4 * 16 = a.toNat * 16 := by omega
    simp only [encode, decode, lastOne?, value?_digit _ (by omega : a.toNat / 4 < 64),
      value?_digit _ (by omega : a.toNat % 4 * 16 < 64), Option.bind_eq_bind, Option.bind_some,
      hn, Nat.mul_mod_left, ↓reduceIte, Nat.mul_div_cancel _ (by decide : 0 < 16),
      UInt8.ofNat_toNat]
  | case3 a b =>
    have ha : a.toNat < 256 := a.toNat_lt
    have hb : b.toNat < 256 := b.toNat_lt
    have hlast := ofNat_add_byte a.toNat b
    simp only [encode]
    generalize hn : a.toNat * 256 + b.toNat = n at hlast
    have hsum : n / 1024 * 4096 + n / 16 % 64 * 64 + n % 16 * 4 = n * 4 := by
      have h : n / 1024 * 1024 + n / 16 % 64 * 16 + n % 16 = n := sum_of_places n 16 64
      linarith
    have hfirst : n * 4 / 1024 = a.toNat := by omega
    rw [decode.eq_3 _ _ _ (digit_ne_pad _ (by omega))]
    simp only [lastTwo?, value?_digit _ (by omega : n / 1024 < 64),
      value?_digit _ (by omega : n / 16 % 64 < 64), value?_digit _ (by omega : n % 16 * 4 < 64),
      Option.bind_eq_bind, Option.bind_some, hsum, Nat.mul_mod_left, ↓reduceIte, hfirst,
      Nat.mul_div_cancel _ (by decide : 0 < 4), UInt8.ofNat_toNat, hlast]
  | case4 a b c rest ih =>
    have ha : a.toNat < 256 := a.toNat_lt
    have hb : b.toNat < 256 := b.toNat_lt
    have hc : c.toNat < 256 := c.toNat_lt
    have hlast := ofNat_add_byte (a.toNat * 256 + b.toNat) c
    have hmiddle := ofNat_add_byte a.toNat b
    simp only [Nat.add_mul, Nat.mul_assoc, Nat.reduceMul] at hlast
    simp only [encode]
    generalize hn : a.toNat * 65536 + b.toNat * 256 + c.toNat = n at hlast
    have hfirst : n / 65536 = a.toNat := by omega
    have hboth : n / 256 = a.toNat * 256 + b.toNat := by omega
    -- The group does not end in a pad, so it is read as a full one.
    have hpad : digit (n % 64) ≠ '=' := digit_ne_pad _ (by omega)
    rw [decode.eq_4 _ _ _ _ _ (fun _ h => absurd h hpad) (fun h => absurd h hpad)]
    simp only [group?, value?_digit _ (by omega : n / 262144 < 64),
      value?_digit _ (by omega : n / 4096 % 64 < 64), value?_digit _ (by omega : n / 64 % 64 < 64),
      value?_digit _ (by omega : n % 64 < 64), Option.bind_eq_bind, Option.bind_some,
      sum_of_digits, ih, hlast, hboth, hmiddle, hfirst, UInt8.ofNat_toNat, List.cons_append,
      List.nil_append]

/-! ## Nothing else is read -/

theorem eq_encode_of_lastOne? (h : lastOne? w x = some bytes) :
    [w, x, '=', '='] = encode bytes := by
  simp only [lastOne?, Option.bind_eq_bind, Option.bind_eq_some_iff, value?_eq_some_iff,
    Option.ite_none_right_eq_some, Option.some.injEq] at h
  obtain ⟨k, ⟨hk, rfl⟩, l, ⟨hl, rfl⟩, hlow, rfl⟩ := h
  generalize hn : k * 64 + l = n at hlow
  have hfirst : n / 16 / 4 = k := by omega
  have hsecond : n / 16 % 4 * 16 = l := by omega
  simp only [encode, UInt8.toNat_ofNat', Nat.reducePow,
    Nat.mod_eq_of_lt (by omega : n / 16 < 256), hfirst, hsecond]

theorem eq_encode_of_lastTwo? (h : lastTwo? w x y = some bytes) :
    [w, x, y, '='] = encode bytes := by
  simp only [lastTwo?, Option.bind_eq_bind, Option.bind_eq_some_iff, value?_eq_some_iff,
    Option.ite_none_right_eq_some, Option.some.injEq] at h
  obtain ⟨k, ⟨hk, rfl⟩, l, ⟨hl, rfl⟩, m, ⟨hm, rfl⟩, hlow, rfl⟩ := h
  generalize hn : k * 4096 + l * 64 + m = n at hlow
  have hsum : n / 1024 * 256 + n / 4 % 256 = n / 4 := by
    have h := Nat.div_add_mod' (n / 4) 256
    rwa [Nat.div_div_eq_div_mul] at h
  have hfirst : n / 4 / 1024 = k := by omega
  have hsecond : n / 4 / 16 % 64 = l := by omega
  have hthird : n / 4 % 16 * 4 = m := by omega
  simp only [encode, UInt8.toNat_ofNat', Nat.reducePow,
    Nat.mod_eq_of_lt (by omega : n / 1024 < 256), hsum, hfirst, hsecond, hthird]

theorem eq_encode_of_group? (h : group? w x y z = some bytes) (more : List UInt8) :
    w :: x :: y :: z :: encode more = encode (bytes ++ more) := by
  simp only [group?, Option.bind_eq_bind, Option.bind_eq_some_iff, value?_eq_some_iff,
    Option.some.injEq] at h
  obtain ⟨j, ⟨hj, rfl⟩, k, ⟨hk, rfl⟩, l, ⟨hl, rfl⟩, m, ⟨hm, rfl⟩, rfl⟩ := h
  generalize hn : j * 262144 + k * 4096 + l * 64 + m = n
  have hfirst : n / 262144 = j := by omega
  have hsecond : n / 4096 % 64 = k := by omega
  have hthird : n / 64 % 64 = l := by omega
  have hfourth : n % 64 = m := by omega
  have hsum : n / 65536 * 65536 + n / 256 % 256 * 256 + n % 256 = n := sum_of_places n 256 256
  simp only [encode, List.cons_append, List.nil_append, UInt8.toNat_ofNat', Nat.reducePow,
    Nat.mod_eq_of_lt (by omega : n / 65536 < 256), hsum, hfirst, hsecond, hthird, hfourth]

/-- What is read was written. -/
theorem eq_encode_of_decode (h : decode text = some bytes) : text = encode bytes := by
  induction text using decode.induct generalizing bytes with
  | case1 =>
    obtain rfl : bytes = [] := by simpa [decode] using h.symm
    rfl
  | case2 w x => exact eq_encode_of_lastOne? h
  | case3 w x y hy =>
    rw [decode.eq_3 _ _ _ hy] at h
    exact eq_encode_of_lastTwo? h
  | case4 w x y z rest hyz hz ih =>
    rw [decode.eq_4 _ _ _ _ _ hyz hz] at h
    simp only [Option.bind_eq_bind, Option.bind_eq_some_iff, Option.some.injEq] at h
    obtain ⟨group, hgroup, more, hmore, rfl⟩ := h
    rw [ih hmore]
    exact eq_encode_of_group? hgroup more
  | case5 text h₁ h₂ h₃ h₄ =>
    rw [decode.eq_5 _ h₁ h₂ h₃ h₄] at h
    cases h

/-- A text is read exactly if it is the standard text of some bytes, as these. -/
theorem decode_eq_some_iff : decode text = some bytes ↔ text = standard bytes := by
  rw [← encode_eq_standard]
  exact ⟨eq_encode_of_decode, fun h => h ▸ decode_encode bytes⟩

end LeaseQueue.Base64
