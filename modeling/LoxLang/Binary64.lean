/-!
# Doubles in order

The index of a nonnegative double in increasing order is its bit pattern without the sign, so
neighbours in the order are neighbours on the line, and an index is even exactly when the
significand is. Every finite double is a whole number of units of `2 ^ (-1074)` (`units`), which
makes rounding a question about natural numbers (`nearest`).
-/

namespace LoxLang.Binary64

/-- How many doubles there are from a power of two up to the next: `2 ^ 52`. -/
def perBinade : Nat := Nat.pow 2 52

/-- The index of positive infinity, one past the largest finite double. -/
def infinity : Nat := 2047 * perBinade

/-- The value of the `k`-th double in units of `2 ^ (-1074)`. The first `2 ^ 52` doubles are
subnormal and evenly spaced; from there on each run of as many has twice the spacing of the run
before. -/
def units (k : Nat) : Nat :=
  if k < perBinade then k
  else (perBinade + k % perBinade) * Nat.pow 2 (k / perBinade - 1)

/-- The whole number nearest to `num / den`; of two equally near, the even one. -/
def roundHalfEven (num den : Nat) : Nat :=
  let q := num / den
  let r := num % den
  if 2 * r < den then q
  else if den < 2 * r then q + 1
  else q + q % 2

/-- The index of the double nearest to `num / den`; of two equally near, the even one. A
significand rounded up to `2 ^ 53` is the first of the next run, so the sum needs no correction. -/
def nearest (num den : Nat) : Nat :=
  let n := num * Nat.pow 2 1074
  let spacing := (n / den).log2 - 52
  min infinity (spacing * perBinade + roundHalfEven n (den * Nat.pow 2 spacing))

/-- The weight of the sign bit. -/
def signBit : Nat := Nat.pow 2 63

/-- The double of a sign and an index. -/
def ofIndex (negative : Bool) (k : Nat) : Float :=
  Float.ofBits (UInt64.ofNat ((if negative then signBit else 0) + k))

/-- The index of a double's magnitude. -/
def index (x : Float) : Nat := x.toBits.toNat % signBit

/-- Whether the sign bit is set, on zeros too. -/
def isNegative (x : Float) : Bool := signBit ≤ x.toBits.toNat

end LoxLang.Binary64
