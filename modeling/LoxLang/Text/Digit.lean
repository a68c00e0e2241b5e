import LoxLang.Text.Blank

/-!
# Decimal digits

Unicode lists the digits of a script from zero to nine in a row, so the zeros are enough to know the
digits of all scripts (`digit?`). A whole number written with them (`integer?`) may have a sign,
single underscores between its digits, and blanks around it that are no separators; one of too many
digits is refused.
-/

namespace LoxLang.Text

/-- The code points of the digits zero. -/
def zeros : List Nat :=
  [0x30, 0x660, 0x6f0, 0x7c0, 0x966, 0x9e6, 0xa66, 0xae6, 0xb66, 0xbe6, 0xc66, 0xce6, 0xd66, 0xde6,
   0xe50, 0xed0, 0xf20, 0x1040, 0x1090, 0x17e0, 0x1810, 0x1946, 0x19d0, 0x1a80, 0x1a90, 0x1b50,
   0x1bb0, 0x1c40, 0x1c50, 0xa620, 0xa8d0, 0xa900, 0xa9d0, 0xa9f0, 0xaa50, 0xabf0, 0xff10, 0x104a0,
   0x10d30, 0x11066, 0x110f0, 0x11136, 0x111d0, 0x112f0, 0x11450, 0x114d0, 0x11650, 0x116c0,
   0x11730, 0x118e0, 0x11950, 0x11c50, 0x11d50, 0x11da0, 0x16a60, 0x16ac0, 0x16b50, 0x1d7ce,
   0x1d7d8, 0x1d7e2, 0x1d7ec, 0x1d7f6, 0x1e140, 0x1e2f0, 0x1e950, 0x1fbf0]

/-- The value of a digit. -/
def digit? (c : Char) : Option Nat :=
  (zeros.find? fun z => z ≤ c.toNat && c.toNat ≤ z + 9).map (c.toNat - ·)

def isDigit (c : Char) : Bool := (digit? c).isSome

/-- The number that a run of digits stands for; anything else in it counts as nothing. -/
def digitsValue (cs : List Char) : Nat := (cs.filterMap digit?).foldl (fun n d => 10 * n + d) 0

/-- The most digits that a number may have. -/
def mostDigits : Nat := 4300

/-- The number that a text without sign stands for. -/
def natural? (cs : List Char) : Option Nat :=
  let groups := cs.splitOn '_'
  let digits := groups.flatten
  if (groups.all fun g => !g.isEmpty && g.all isDigit) && digits.length ≤ mostDigits then
    some (digitsValue digits)
  else none

/-- The number that a text with or without a sign stands for. -/
def signed? : List Char → Option Int
  | '-' :: cs => (natural? cs).map fun n => -(n : Int)
  | '+' :: cs => (natural? cs).map fun n => (n : Int)
  | cs => (natural? cs).map fun n => (n : Int)

/-- Whether a character may stand around a number. -/
def isPadding (c : Char) : Bool := isBlank c && !isSeparator c

/-- The number that a text stands for. -/
def integer? (cs : List Char) : Option Int :=
  signed? ((cs.dropWhile isPadding).reverse.dropWhile isPadding).reverse

end LoxLang.Text
