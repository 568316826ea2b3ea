/-
  Word arithmetic that notices the end of its range.

  Indices, buckets and versions are 64-bit words. Where the result of a sum or
  a product would not fit, these operations have none.
-/

namespace LeaseQueue

/-- The next word, unless `n` is the last one. -/
def wordSucc? (n : UInt64) : Option UInt64 :=
  if n.toNat + 1 < UInt64.size then some (n + 1) else none

/-- The product, if it fits into a word. -/
def wordMul? (a b : UInt64) : Option UInt64 :=
  if a.toNat * b.toNat < UInt64.size then some (a * b) else none

/-- The next cell value, unless `n` is the last one. -/
def cellSucc? (n : Int64) : Option Int64 :=
  if n = Int64.maxValue then none else some (n + 1)

/-- The next count, or the same one at the end of the range. -/
def countUp (n : UInt32) : UInt32 :=
  if n.toNat + 1 < UInt32.size then n + 1 else n

theorem wordSucc?_eq_some {n m : UInt64} (h : wordSucc? n = some m) : m.toNat = n.toNat + 1 := by
  unfold wordSucc? at h
  split at h
  · cases h
    rename_i h
    rw [UInt64.toNat_add]
    exact Nat.mod_eq_of_lt h
  · cases h

theorem exists_wordSucc? {n m : UInt64} (h : n < m) : ∃ next, wordSucc? n = some next :=
  ⟨n + 1, if_pos (Nat.lt_of_le_of_lt (UInt64.lt_iff_toNat_lt.mp h) m.toNat_lt)⟩

theorem wordMul?_eq_some {a b c : UInt64} (h : wordMul? a b = some c) :
    c.toNat = a.toNat * b.toNat := by
  unfold wordMul? at h
  split at h
  · cases h
    rename_i h
    rw [UInt64.toNat_mul]
    exact Nat.mod_eq_of_lt h
  · cases h

end LeaseQueue
