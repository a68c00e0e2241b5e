import LoxLang.Decimal.Shortest

/-!
# Layouts of doubles

The digits of a double are always the shortest ones that read back; a `Layout` decides the rest of
what is written (`write`): which magnitudes are written with an exponent, whether a whole number
keeps its `.0`, and the names of the values that have no digits.
-/

namespace LoxLang.Decimal

/-- The decisions of one way to write a double. -/
structure Layout where
  /-- The leading digit's exponent is written out unless it lies in this range, lower end included;
  without a range every number is written positionally. -/
  positional : Option (Int × Int)
  /-- A whole number written positionally keeps a fraction `.0`. -/
  wholePoint : Bool
  undefinedName : String
  infiniteName : String

/-- The decimal digits of a natural number, most significant first. -/
def digits (n : Nat) : List Char := Nat.toDigits 10 n

/-- The digits of `n` filled up with zeros on the left to the given width. -/
def padded (width n : Nat) : List Char :=
  List.replicate (width - (digits n).length) '0' ++ digits n

/-- The number 1 in units of `10 ^ (-1074)`. -/
def one : Nat := Nat.pow 10 1074

/-- A decimal without exponent: the whole part, and the fraction unless it is zero. -/
def positional (wholePoint : Bool) (g : Grid) : List Char :=
  let n := g.coefficient * Nat.pow 10 g.place
  let whole := digits (n / one)
  let fraction := n % one
  if fraction = 0 then
    whole ++ if wholePoint then ['.', '0'] else []
  else
    whole ++ '.' :: padded (1074 - g.place) (fraction / Nat.pow 10 g.place)

/-- The exponent of the leading digit. -/
def leadingExponent (g : Grid) : Int :=
  (g.place + (digits g.coefficient).length : Int) - 1075

/-- A decimal with an exponent: one digit, the others behind a point, and an exponent with a sign
and at least two digits. -/
def scientific (g : Grid) : List Char :=
  let e := leadingExponent g
  let mantissa := match digits g.coefficient with
    | [] => []
    | [d] => [d]
    | d :: rest => d :: '.' :: rest
  mantissa ++ 'e' :: (if e < 0 then '-' else '+') :: padded 2 e.natAbs

/-- The digits of the `k`-th double under a layout. -/
def magnitude (layout : Layout) (k : Nat) : List Char :=
  if k = 0 then '0' :: if layout.wholePoint then ['.', '0'] else []
  else
    let g := shortest k
    match layout.positional with
    | none => positional layout.wholePoint g
    | some (low, high) =>
      if low ≤ leadingExponent g ∧ leadingExponent g < high then positional layout.wholePoint g
      else scientific g

/-- The text of a double under a layout. The sign of a zero is written, that of an undefined value
is not. -/
def write (layout : Layout) (x : Float) : String :=
  let k := Binary64.index x
  if Binary64.infinity < k then layout.undefinedName
  else
    let body :=
      if k = Binary64.infinity then layout.infiniteName.toList else magnitude layout k
    String.ofList (if Binary64.isNegative x then '-' :: body else body)

end LoxLang.Decimal
