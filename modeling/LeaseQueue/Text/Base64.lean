/-
  Base64 over the standard alphabet.

  `encode` writes three bytes as four digits and pads the last group with `=`.
  `decode` reads that form and nothing else: the padding must be there, must
  close the last group of four, and the bits it leaves over must be zero.
-/

namespace LeaseQueue.Base64

/-- The digit that stands for `n`, for `n` below 64. -/
def digit (n : Nat) : Char :=
  if n < 26 then Char.ofNat (n + 65)
  else if n < 52 then Char.ofNat (n + 71)
  else if n < 62 then Char.ofNat (n - 4)
  else if n = 62 then '+'
  else '/'

/-- The value of a digit; `none` for every other character, `=` among them. -/
def value? (c : Char) : Option Nat :=
  if 'A' ≤ c ∧ c ≤ 'Z' then some (c.toNat - 65)
  else if 'a' ≤ c ∧ c ≤ 'z' then some (c.toNat - 71)
  else if '0' ≤ c ∧ c ≤ '9' then some (c.toNat + 4)
  else if c = '+' then some 62
  else if c = '/' then some 63
  else none

theorem value?_digit : ∀ n < 64, value? (digit n) = some n := by decide

theorem digit_ne_pad : ∀ n < 64, digit n ≠ '=' := by decide

/-- Three bytes become four digits of six bits; a shorter last group is padded. -/
def encode : List UInt8 → List Char
  | [] => []
  | [a] =>
    let n := a.toNat
    [digit (n / 4), digit (n % 4 * 16), '=', '=']
  | [a, b] =>
    let n := a.toNat * 256 + b.toNat
    [digit (n / 1024), digit (n / 16 % 64), digit (n % 16 * 4), '=']
  | a :: b :: c :: rest =>
    let n := a.toNat * 65536 + b.toNat * 256 + c.toNat
    digit (n / 262144) :: digit (n / 4096 % 64) :: digit (n / 64 % 64) :: digit (n % 64)
      :: encode rest

/-- The byte of a last group of two digits, whose low four bits are zero. -/
def lastOne? (w x : Char) : Option (List UInt8) := do
  let n := (← value? w) * 64 + (← value? x)
  if n % 16 = 0 then some [UInt8.ofNat (n / 16)] else none

/-- The bytes of a last group of three digits, whose low two bits are zero. -/
def lastTwo? (w x y : Char) : Option (List UInt8) := do
  let n := (← value? w) * 4096 + (← value? x) * 64 + (← value? y)
  if n % 4 = 0 then some [UInt8.ofNat (n / 1024), UInt8.ofNat (n / 4)] else none

/-- The bytes of a full group of four digits. -/
def group? (w x y z : Char) : Option (List UInt8) := do
  let n := (← value? w) * 262144 + (← value? x) * 4096 + (← value? y) * 64 + (← value? z)
  some [UInt8.ofNat (n / 65536), UInt8.ofNat (n / 256), UInt8.ofNat n]

/-- Reads groups of four; only the last one may be padded. -/
def decode : List Char → Option (List UInt8)
  | [] => some []
  | [w, x, '=', '='] => lastOne? w x
  | [w, x, y, '='] => lastTwo? w x y
  | w :: x :: y :: z :: rest => do
    let bytes ← group? w x y z
    let more ← decode rest
    some (bytes ++ more)
  | _ => none

end LeaseQueue.Base64
