/-
  Numerals of 64-bit words.

  Reading goes digit by digit from the left and stops at the first fault, so
  two faults in one text are told apart by their place; at one place, a
  character that is no digit comes before a value that no longer fits.
-/

namespace LeaseQueue.Numeral

inductive Fault where
  | empty
  | invalidDigit
  | tooLarge
  deriving DecidableEq, Repr

def Fault.message : Fault → String
  | .empty => "cannot parse integer from empty string"
  | .invalidDigit => "invalid digit found in string"
  | .tooLarge => "number too large to fit in target type"

/-- A hexadecimal digit of either case, in ASCII. -/
def isHexDigit (c : Char) : Bool :=
  ('0' ≤ c && c ≤ '9') || ('a' ≤ c && c ≤ 'f') || ('A' ≤ c && c ≤ 'F')

/-- The value of a digit, letters counting on from ten. -/
def hexValue (c : Char) : Nat :=
  if c ≤ '9' then c.toNat - 48
  else if c ≤ 'F' then c.toNat - 55
  else c.toNat - 87

/-- The value of a digit in the given radix, which is at most sixteen. -/
def digitValue? (radix : Nat) (c : Char) : Option Nat :=
  if isHexDigit c && hexValue c < radix then some (hexValue c) else none

/-- Reads on from the value of the digits seen so far. -/
def readFrom (radix : Nat) : Nat → List Char → Except Fault UInt64
  | value, [] => .ok (UInt64.ofNat value)
  | value, c :: rest =>
    match digitValue? radix c with
    | none => .error .invalidDigit
    | some d =>
      if value * radix + d < UInt64.size then readFrom radix (value * radix + d) rest
      else .error .tooLarge

/-- Reads a numeral, before which one `+` may stand. -/
def read (radix : Nat) : List Char → Except Fault UInt64
  | [] => .error .empty
  | '+' :: c :: rest => readFrom radix 0 (c :: rest)
  | text => readFrom radix 0 text

/-- The lower-case digit of a value below sixteen. -/
def hexDigit (n : Nat) : Char :=
  if n < 10 then Char.ofNat (n + 48) else Char.ofNat (n + 87)

/-- The low `width` hexadecimal digits of `n`, leading zeros included. -/
def fixedHex : Nat → Nat → List Char
  | 0, _ => []
  | width + 1, n => fixedHex width (n / 16) ++ [hexDigit (n % 16)]

def decimal (n : UInt64) : String := n.toNat.repr

theorem length_fixedHex (width n : Nat) : (fixedHex width n).length = width := by
  induction width generalizing n with
  | zero => rfl
  | succ width ih => simp [fixedHex, ih]

end LeaseQueue.Numeral
