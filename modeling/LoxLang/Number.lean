import LoxLang.Decimal.Layout

/-!
# Numbers

The numbers of Lox are doubles. A numeral is read to the nearest double (`Number.ofNumeral`), and
two numbers are equal when they compare equal or are both undefined (`Number.equal`). A token list
shows a number by the shortest numeral that reads back, with an exponent where that is shorter
(`Number.listing`). A program prints the same digits without an exponent and without the fraction of
a whole number (`Number.text`): what is listed is written out if it has an exponent, and a fraction
of `0` is taken off.
-/

namespace LoxLang.Number

/-- ASCII digits only: no other digit begins or continues a numeral. -/
def isDigit (c : Char) : Bool := '0' ≤ c && c ≤ '9'

/-- The value of a run of digits. -/
def value (cs : List Char) : Nat :=
  cs.foldl (fun n c => 10 * n + (c.toNat - '0'.toNat)) 0

/-- The double nearest to a numeral `DIGITS` or `DIGITS.DIGITS`. -/
def ofNumeral (numeral : List Char) : Float :=
  let whole := numeral.takeWhile isDigit
  let fraction := (numeral.dropWhile isDigit).drop 1
  Binary64.ofIndex false
    (Binary64.nearest (value (whole ++ fraction)) (Nat.pow 10 fraction.length))

/-- How a token list shows a number: with an exponent below `10 ^ (-4)` and from `10 ^ 16` on, and
otherwise always with a fraction. -/
def listed : Decimal.Layout := ⟨some (-4, 16), true, "nan", "inf"⟩

/-- The text of a number in a token list. -/
def listing (x : Float) : String := Decimal.write listed x

/-- Digits with the point behind so many of them, and zeros where there are none. -/
def pointed (digits : List Char) (place : Int) : List Char :=
  if place ≤ 0 then '0' :: '.' :: (List.replicate place.natAbs '0' ++ digits)
  else if digits.length ≤ place then
    digits ++ List.replicate (place - digits.length).natAbs '0'
  else digits.take place.natAbs ++ '.' :: digits.drop place.natAbs

/-- The value of an exponent, which has a sign. -/
def exponent : List Char → Int
  | '-' :: digits => -value digits
  | digits => value (digits.drop 1)

/-- A numeral with an exponent, written out without it. -/
def expanded (numeral : List Char) : List Char :=
  let mantissa := numeral.takeWhile (· ≠ 'e')
  let whole := mantissa.takeWhile isDigit
  let fraction := (mantissa.dropWhile isDigit).drop 1
  pointed (whole ++ fraction)
    (whole.length + exponent ((numeral.dropWhile (· ≠ 'e')).drop 1))

/-- A number with an exponent, written out with its sign. -/
def writtenOut : List Char → List Char
  | '-' :: numeral => '-' :: expanded numeral
  | numeral => expanded numeral

/-- The text of a whole number without the fraction that it has there. -/
def withoutZeroFraction (text : List Char) : List Char :=
  if ['.', '0'].isSuffixOf text then text.take (text.length - 2) else text

/-- The digits of a number as a program prints them, from those in a token list. -/
def plain (listed : List Char) : List Char :=
  withoutZeroFraction (if listed.contains 'e' then writtenOut listed else listed)

/-- The text of a number as a program prints it. -/
def text (x : Float) : String :=
  if Binary64.infinity < Binary64.index x then "NaN"
  else if Binary64.index x = Binary64.infinity then
    if Binary64.isNegative x then "-Infinity" else "Infinity"
  else String.ofList (plain (listing x).toList)

/-- Equality of numbers: the two zeros are equal, and an undefined number equals itself. -/
def equal (x y : Float) : Bool := x == y || (x.isNaN && y.isNaN)

end LoxLang.Number
