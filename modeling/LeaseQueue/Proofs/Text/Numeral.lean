import LeaseQueue.Tag
import LeaseQueue.Proofs.Text.Base64
import Mathlib.Data.List.Basic
import Mathlib.Data.Nat.Digits.Defs

/-
  Numerals: a text is read exactly if it stands for a word.

  The value of a digit is its place in the row of digits, the value of a text is
  the sum of its digits at their powers of the radix. Reading takes the same sum
  from the left and stops where it no longer fits; since it never falls again,
  it stops exactly if the whole sum does not fit.
-/

namespace LeaseQueue.Numeral

variable {c : Char} {radix d value : Nat} {text : List Char} {n : UInt64}

/-! ## Digits -/

/-- The digits of every radix up to sixteen, each at the place of its value. -/
def row : List Char := "0123456789abcdef".toList

/-- The place of a character among the digits, a letter in either case; that of any other character
is behind them. -/
def placeOf (c : Char) : Nat := row.idxOf c.toLower

theorem placeOf_eq_of_ascii :
    ∀ k < 128, placeOf (Char.ofNat k) =
      if isHexDigit (Char.ofNat k) then hexValue (Char.ofNat k) else 16 := by
  decide

theorem toNat_lt_of_mem_row (h : c ∈ row) : c.toNat < 128 := by
  have hall : row.all fun c => c.toNat < 128 := by decide
  exact of_decide_eq_true (List.all_eq_true.mp hall c h)

/-- A character beyond ASCII is no digit, nor is one in lower case. -/
theorem placeOf_eq (c : Char) : placeOf c = if isHexDigit c then hexValue c else 16 := by
  by_cases hc : c.toNat < 128
  · simpa only [Char.ofNat_toNat] using placeOf_eq_of_ascii c.toNat hc
  · have hlower : c.toLower = c := by
      refine dif_neg fun h => hc ?_
      have : c.toNat ≤ 90 := by simpa [UInt32.le_iff_toNat_le] using h.2
      omega
    have hnone : c ∉ row := fun h => hc (toNat_lt_of_mem_row h)
    have hhex : isHexDigit c = false := by
      simp only [isHexDigit, Base64.char_le_iff, Char.reduceToNat, Bool.or_eq_false_iff,
        Bool.and_eq_false_iff, decide_eq_false_iff_not]
      omega
    rw [placeOf, hlower, List.idxOf_eq_length hnone, hhex]
    rfl

theorem digitValue?_eq_some_iff (hradix : radix ≤ 16) :
    digitValue? radix c = some d ↔ placeOf c = d ∧ d < radix := by
  rw [placeOf_eq, digitValue?]
  cases isHexDigit c
  · simp only [Bool.false_and, Bool.false_eq_true, ↓reduceIte, reduceCtorEq, false_iff]
    omega
  · simp only [Bool.true_and, decide_eq_true_eq, ↓reduceIte, Option.ite_none_right_eq_some,
      Option.some.injEq]
    exact ⟨fun ⟨h, he⟩ => ⟨he, he ▸ h⟩, fun ⟨he, h⟩ => ⟨he ▸ h, he⟩⟩

/-! ## The value of a text -/

/-- The value of a row of digits, the last one counting once. -/
def valueOf (radix : Nat) (text : List Char) : Nat :=
  Nat.ofDigits radix (text.reverse.map placeOf)

/-- A text stands for a word: it is made of digits, at least one, of this value. -/
structure Denotes (radix : Nat) (text : List Char) (n : UInt64) : Prop where
  written : text ≠ []
  digits : ∀ c ∈ text, placeOf c < radix
  value : valueOf radix text = n.toNat

/-- The value, taken from the left on from that of the digits seen so far. -/
def valueFrom (radix value : Nat) (text : List Char) : Nat :=
  text.foldl (fun v c => placeOf c + radix * v) value

theorem valueFrom_zero (radix : Nat) (text : List Char) :
    valueFrom radix 0 text = valueOf radix text := by
  rw [valueOf, Nat.ofDigits_eq_foldr, List.foldr_map, List.foldr_reverse]
  rfl

theorem le_valueFrom (hradix : 1 ≤ radix) : value ≤ valueFrom radix value text := by
  induction text generalizing value with
  | nil => exact le_rfl
  | cons c rest ih =>
    calc value ≤ radix * value := Nat.le_mul_of_pos_left value hradix
      _ ≤ placeOf c + radix * value := Nat.le_add_left _ _
      _ ≤ valueFrom radix value (c :: rest) := ih

/-! ## Reading -/

section Reading

variable (hlow : 1 ≤ radix) (hhigh : radix ≤ 16)
include hlow hhigh

theorem readFrom_eq_ok_iff (hvalue : value < UInt64.size) :
    readFrom radix value text = .ok n ↔
      (∀ c ∈ text, placeOf c < radix) ∧ valueFrom radix value text = n.toNat := by
  induction text generalizing value with
  | nil =>
    simp only [readFrom, Except.ok.injEq, List.not_mem_nil, false_implies, implies_true, true_and,
      valueFrom, List.foldl_nil, ← UInt64.toNat_inj, UInt64.toNat_ofNat_of_lt' hvalue]
  | cons c rest ih =>
    rw [List.forall_mem_cons, readFrom]
    cases hdigit : digitValue? radix c with
    | none =>
      have hplace : ¬ placeOf c < radix := fun h => by
        rw [(digitValue?_eq_some_iff hhigh).2 ⟨rfl, h⟩] at hdigit
        cases hdigit
      simp only [reduceCtorEq, hplace, false_and]
    | some d =>
      obtain ⟨rfl, hplace⟩ := (digitValue?_eq_some_iff hhigh).1 hdigit
      have hnext : value * radix + placeOf c = placeOf c + radix * value := by
        rw [Nat.add_comm, Nat.mul_comm]
      by_cases hfit : placeOf c + radix * value < UInt64.size
      · simp only [hnext, hfit, ↓reduceIte, ih hfit, hplace, true_and]
        rfl
      · have hlarge : valueFrom radix value (c :: rest) ≠ n.toNat := fun h =>
          hfit ((le_valueFrom hlow).trans_lt (h ▸ n.toNat_lt_size))
        simp only [hnext, hfit, ↓reduceIte, reduceCtorEq, hlarge, and_false]

/-- A text of digits only is read exactly as what it stands for. -/
theorem read_eq_ok_iff (hdigits : text.all isHexDigit) :
    read radix text = .ok n ↔ Denotes radix text n := by
  have hread : ∀ c rest, text = c :: rest → read radix text = readFrom radix 0 (c :: rest) := by
    rintro c rest rfl
    have hplus : c ≠ '+' := by
      rintro rfl
      simp [isHexDigit] at hdigits
    rw [read.eq_3 _ _ (by simp) (by rintro _ _ h; cases h; exact hplus rfl)]
  cases text with
  | nil => exact ⟨(nomatch ·), fun h => absurd rfl h.written⟩
  | cons c rest =>
    rw [hread c rest rfl, readFrom_eq_ok_iff hlow hhigh (by decide), valueFrom_zero]
    exact ⟨fun h => ⟨by simp, h.1, h.2⟩, fun h => ⟨h.digits, h.value⟩⟩

theorem Denotes.all_isHexDigit (h : Denotes radix text n) : text.all isHexDigit := by
  refine List.all_eq_true.2 fun c hc => ?_
  have hplace := h.digits c hc
  rw [placeOf_eq] at hplace
  by_contra hhex
  rw [if_neg hhex] at hplace
  omega

end Reading

/-! ## Writing -/

theorem placeOf_of_isDigit : ∀ k < 128, (Char.ofNat k).isDigit →
    placeOf (Char.ofNat k) = k - 48 ∧ k - 48 < 10 := by
  decide

theorem denotes_decimal (n : UInt64) : Denotes 10 (decimal n).toList n := by
  have htext : (decimal n).toList = Nat.toDigits 10 n.toNat := by
    rw [decimal, Nat.toList_repr]
  have hdigit : ∀ c ∈ Nat.toDigits 10 n.toNat, placeOf c = c.toNat - 48 ∧ c.toNat - 48 < 10 := by
    intro c hc
    have h := Nat.isDigit_of_mem_toDigits (by decide) (by decide) hc
    have hascii : c.toNat < 128 := by
      have hnine : c ≤ '9' := of_decide_eq_true (Bool.and_eq_true_iff.1 h).2
      simp only [Base64.char_le_iff, Char.reduceToNat] at hnine
      omega
    simpa only [Char.ofNat_toNat] using
      placeOf_of_isDigit c.toNat hascii ((Char.ofNat_toNat c).symm ▸ h)
  rw [htext]
  refine ⟨Nat.toDigits_ne_nil, fun c hc => (hdigit c hc).1 ▸ (hdigit c hc).2, ?_⟩
  calc valueOf 10 (Nat.toDigits 10 n.toNat)
      = valueFrom 10 0 (Nat.toDigits 10 n.toNat) := (valueFrom_zero _ _).symm
    _ = Nat.ofDigitChars 10 (Nat.toDigits 10 n.toNat) 0 := by
        rw [Nat.ofDigitChars_eq_foldl]
        exact List.foldl_ext _ _ _ fun v c hc => by rw [(hdigit c hc).1, Nat.add_comm]; rfl
    _ = n.toNat := Nat.ofDigitChars_ten_toDigits

theorem placeOf_hexDigit : ∀ k < 16, placeOf (hexDigit k) = k := by decide

theorem placeOf_lt_of_mem_fixedHex {width k : Nat} (h : c ∈ fixedHex width k) :
    placeOf c < 16 := by
  induction width generalizing k with
  | zero => cases h
  | succ width ih =>
    rcases List.mem_append.1 h with h | h
    · exact ih h
    · have hlt := Nat.mod_lt k (by decide : 16 > 0)
      rw [List.mem_singleton.1 h, placeOf_hexDigit _ hlt]
      exact hlt

/-- A numeral of fixed width has the value of the digits that it keeps. -/
theorem valueOf_fixedHex (width k : Nat) : valueOf 16 (fixedHex width k) = k % 16 ^ width := by
  induction width generalizing k with
  | zero => simp [fixedHex, valueOf, Nat.mod_one]
  | succ width ih =>
    have hlt := Nat.mod_lt k (by decide : 16 > 0)
    simp only [valueOf] at ih ⊢
    rw [fixedHex, List.reverse_append, List.reverse_singleton, List.singleton_append,
      List.map_cons, Nat.ofDigits_cons, ih, placeOf_hexDigit _ hlt, pow_succ', Nat.mod_mul]

theorem denotes_tag (t : Tag) : Denotes 16 t.text.toList t.word := by
  rw [Tag.text, String.toList_ofList]
  refine ⟨fun h => ?_, fun c => placeOf_lt_of_mem_fixedHex, ?_⟩
  · have hlength := length_fixedHex 16 t.word.toNat
    rw [h] at hlength
    cases hlength
  · rw [valueOf_fixedHex]
    exact Nat.mod_eq_of_lt t.word.toNat_lt

end LeaseQueue.Numeral
