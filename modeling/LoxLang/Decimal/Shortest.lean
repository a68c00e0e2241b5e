import LoxLang.Binary64

/-!
# Shortest decimals

The shortest decimal that reads back as a given double (`shortest`). In units of `10 ^ (-1074)`
every finite double is a whole number, and so is twice every boundary between two neighbours; a grid
of decimals with `p` fewer places is the set of multiples of `10 ^ p`. The coarsest grid with a
point that rounds to the double is found by going down from one that is certainly too coarse
(`descend`), and the grid `p = 0`, which holds the double itself, ends the search.
-/

namespace LoxLang.Decimal

/-- The number `coefficient * 10 ^ place` in units of `10 ^ (-1074)`. -/
structure Grid where
  coefficient : Nat
  place : Nat
deriving DecidableEq

/-- The value of the `k`-th double in units of `10 ^ (-1074)`. -/
def units (k : Nat) : Nat := Binary64.units k * Nat.pow 5 1074

/-- Twice the boundary between the `k`-th double and the next. -/
def boundary (k : Nat) : Nat := units k + units (k + 1)

/-- Whether a number of units rounds to the `k`-th double. Both ends belong to a double of even
index. -/
def roundsTo (k : Nat) (n : Nat) : Bool :=
  let low := boundary (k - 1)
  let high := boundary k
  (low < 2 * n && 2 * n < high) || (k % 2 == 0 && (low == 2 * n || 2 * n == high))

/-- Of the two multiples of a step around a value, the coefficient of the one that passes a test: if
both do the nearer one, and if both are equally near the even one. -/
def multiple? (passes : Nat → Bool) (value step : Nat) : Option Nat :=
  let below := value / step
  match passes (below * step), passes ((below + 1) * step) with
  | true, true => some (Binary64.roundHalfEven value step)
  | true, false => some below
  | false, true => some (below + 1)
  | false, false => none

/-- The multiple of `10 ^ p` that rounds to the `k`-th double. -/
def onGrid? (k p : Nat) : Option Nat := multiple? (roundsTo k) (units k) (Nat.pow 10 p)

/-- The first grid from `10 ^ p` down that has a point, or the last one. -/
def descend (point? : Nat → Option Nat) (last : Nat) : Nat → Grid
  | 0 => ⟨last, 0⟩
  | p + 1 =>
    match point? (p + 1) with
    | some d => ⟨d, p + 1⟩
    | none => descend point? last p

/-- A place whose power of ten is beyond the `k`-th double. -/
def beyond (k : Nat) : Nat := (units k).log2 * 30103 / 100000 + 1

/-- The shortest decimal for the `k`-th double, `k` at least 1. -/
def shortest (k : Nat) : Grid := descend (onGrid? k) (units k) (beyond k)

end LoxLang.Decimal
