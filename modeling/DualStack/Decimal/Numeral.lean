/-
Numbers as text.

Two formats write a number, one in shown programs and one in printed values.
They agree on the digits, which are the fewest that name the number, and differ
in where positional notation ends and in the spelling of the infinities; those
choices are the fields of a `Style`.

In the other direction a numeral of the language is an optional minus sign and
decimal digits with at most one point among, before or after them, and at least
one digit.  It denotes the double nearest to the decimal it spells.
-/
import DualStack.Decimal.Shortest

namespace DualStack.Decimal

/-- The choices of a number format. -/
structure Style where
  /-- The decimal exponents that are written without an exponent mark. -/
  positional : Int → Bool
  /-- The text of positive infinity. -/
  infinity : String
  /-- The text of negative infinity. -/
  negativeInfinity : String

/-- The digits of a number in base ten, most significant first. -/
def digitsOf (n : Nat) : List Char :=
  Nat.toDigits 10 n

/-- The exponent of the first digit of a decimal. -/
def Scaled.leading (d : Scaled) : Int :=
  d.exponent + (digitsOf d.coefficient).length - 1

/-- A decimal written out by position. -/
def Scaled.positional (d : Scaled) : List Char :=
  let digits := digitsOf d.coefficient
  if 0 ≤ d.exponent then digits ++ List.replicate d.exponent.toNat '0'
  else
    let places := (-d.exponent).toNat
    if places < digits.length then
      digits.take (digits.length - places) ++ '.' :: digits.drop (digits.length - places)
    else '0' :: '.' :: (List.replicate (places - digits.length) '0' ++ digits)

/-- An exponent with its sign and at least two digits. -/
def exponentMark (e : Int) : List Char :=
  let digits := digitsOf e.natAbs
  let padded := if digits.length < 2 then '0' :: digits else digits
  'e' :: (if e < 0 then '-' else '+') :: padded

/-- A decimal written as one digit, the others after the point, and an exponent. -/
def Scaled.scientific (d : Scaled) : List Char :=
  match digitsOf d.coefficient with
  | [] => []
  | [digit] => digit :: exponentMark d.leading
  | digit :: rest => digit :: '.' :: (rest ++ exponentMark d.leading)

/-- A decimal in a given style. -/
def Scaled.write (style : Style) (d : Scaled) : List Char :=
  if style.positional d.leading then d.positional else d.scientific

/-- The minus sign of a negative number. -/
def signMark (negative : Bool) : List Char :=
  if negative then ['-'] else []

/-- A number in a given style; a zero keeps its sign. -/
def write (style : Style) (x : Float) : String :=
  match x.toModel.unpack with
  | .notANumber => "NaN"
  | .infinity .positive => style.infinity
  | .infinity .negative => style.negativeInfinity
  | .zero sign => String.ofList (signMark (sign matches .negative) ++ ['0'])
  | .finite sign m q _ =>
    String.ofList (signMark (sign matches .negative) ++ (shortest m q).write style)

/-- The ten decimal digits. -/
def isDigit (c : Char) : Bool :=
  '0' ≤ c && c ≤ '9'

/-- The natural number a run of digits spells. -/
def natOf (digits : List Char) : Nat :=
  digits.foldl (fun n c => 10 * n + (c.toNat - '0'.toNat)) 0

/-- The double nearest to the decimal with these digits before and after the point. -/
def nearest (whole fraction : List Char) : Float :=
  Float.ofScientific (natOf (whole ++ fraction)) true fraction.length

/-- Read a numeral without a sign. -/
def readUnsigned? (cs : List Char) : Option Float :=
  let whole := cs.takeWhile isDigit
  match cs.dropWhile isDigit with
  | [] => if whole.isEmpty then none else some (nearest whole [])
  | point :: fraction =>
    if point = '.' ∧ fraction.all isDigit ∧ ¬(whole.isEmpty ∧ fraction.isEmpty) then
      some (nearest whole fraction)
    else none

/-- Read a numeral: digits with at most one point and an optional minus sign in front. -/
def read? : List Char → Option Float
  | '-' :: cs => (readUnsigned? cs).map Float.neg
  | cs => readUnsigned? cs

end DualStack.Decimal
