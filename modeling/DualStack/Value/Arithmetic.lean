/-
The binary operators on values.

Each operator has a result only for operands of the right variants: numbers, and
texts for `plus`.  The remainder works on whole numbers: both operands are cut
toward zero into the range of 64 bits, and there is no result when the divisor is
then zero, or when the quotient itself would leave that range.  `equal` always
has a result; there a text and a reference with the same letters agree.
-/
import DualStack.Value

namespace DualStack.Value

/-- The number an operator on numbers yields. -/
def arithmetic (op : Float → Float → Float) : Value → Value → Option Value
  | number x, number y => some (number (op x y))
  | _, _ => none

/-- The answer a comparison of numbers yields. -/
def comparison (op : Float → Float → Bool) : Value → Value → Option Value
  | number x, number y => some (boolean (op x y))
  | _, _ => none

/-- The sum of two numbers, or two texts joined. -/
def plus : Value → Value → Option Value
  | text s, text t => some (text (s ++ t))
  | a, b => arithmetic Float.add a b

/-- The difference of two numbers. -/
def minus : Value → Value → Option Value :=
  arithmetic Float.sub

/-- The product of two numbers. -/
def times : Value → Value → Option Value :=
  arithmetic Float.mul

/-- The quotient of two numbers. -/
def divide : Value → Value → Option Value :=
  arithmetic Float.div

/-- A number cut toward zero, as near as 64 bits come to it; zero for NaN. -/
def whole (x : Float) : Int64 :=
  x.toModel.toInt64

/-- The number nearest to a whole number of 64 bits. -/
def ofWhole (n : Int64) : Float :=
  .ofModel (.ofInt64 n)

/-- The remainder of two whole numbers of 64 bits, with the sign of the first. -/
def wholeRemainder (a b : Int64) : Option Int64 :=
  if b = 0 ∨ (a = Int64.minValue ∧ b = -1) then none else some (a % b)

/-- The remainder of two numbers cut toward zero. -/
def remainder : Value → Value → Option Value
  | number x, number y => (wholeRemainder (whole x) (whole y)).map fun r => number (ofWhole r)
  | _, _ => none

/-- Whether the first number is below the second. -/
def less : Value → Value → Option Value :=
  comparison Float.lt

/-- Whether the first number is above the second. -/
def greater : Value → Value → Option Value :=
  comparison fun x y => Float.lt y x

/-- Whether two values are equal, where a text and a reference count as equal when their
letters are. -/
def equals : Value → Value → Bool
  | text s, reference t => s == t
  | reference s, text t => s == t
  | a, b => same a b

/-- The answer of `equals` as a value. -/
def equal (a b : Value) : Option Value :=
  some (boolean (equals a b))

end DualStack.Value
