/-
Values: what the stacks and the variables hold.

Equality of values is decided variant by variant.  Numbers compare as numbers, so
a NaN differs from itself and the two zeros agree; lists and vectors agree element
by element, lists only after their lengths were found equal; pipes are equal only to
copies of themselves.
-/
import DualStack.Chain
import DualStack.Decimal.Numeral
import DualStack.Node

namespace DualStack

/-- The name of a pipe: copies of a pipe carry the same name. -/
structure PipeId where
  index : Nat
deriving DecidableEq

/-- A value. -/
inductive Value where
  /-- The absence of a value: an unset variable, an index out of range. -/
  | nil
  | number (x : Float)
  | text (s : String)
  | byte (b : UInt8)
  | boolean (b : Bool)
  /-- The name of a variable. -/
  | reference (name : String)
  /-- A byte string. -/
  | blob (bytes : List UInt8)
  /-- A sequence that grows at the front. -/
  | list (chain : Chain Value)
  /-- A sequence that grows at the end. -/
  | vector (elements : List Value)
  /-- A handle on a byte stream. -/
  | pipe (id : PipeId)

namespace Value

mutual

/-- Equality of values. -/
def same : Value → Value → Bool
  | nil, nil => true
  | number x, number y => x == y
  | text s, text t => s == t
  | byte a, byte b => a == b
  | boolean a, boolean b => a == b
  | reference s, reference t => s == t
  | blob a, blob b => a == b
  | list a, list b => sameChain a b
  | vector a, vector b => sameAll a b
  | pipe a, pipe b => a == b
  | _, _ => false

/-- Equality of two lists, the lengths first. -/
def sameChain : Chain Value → Chain Value → Bool
  | ⟨as, n⟩, ⟨bs, k⟩ => n == k && sameAll as bs

/-- Equality of two sequences of values, element by element. -/
def sameAll : List Value → List Value → Bool
  | [], [] => true
  | a :: as, b :: bs => same a b && sameAll as bs
  | _, _ => false

end

/-- A sequence of values as a list or a vector. -/
def collect : Shape → List Value → Value
  | .list, elements => list (.ofList elements)
  | .vector, elements => vector elements

/-- The values that a list or a vector is made of. -/
def members : Value → List Value
  | list chain => chain.cells
  | vector elements => elements
  | _ => []

/-- The name of a value's variant. -/
def typeName : Value → String
  | nil => "nil"
  | number _ => "number"
  | text _ => "string"
  | byte _ => "byte"
  | boolean _ => "boolean"
  | reference _ => "reference"
  | blob _ => "blob"
  | list _ => "list"
  | vector _ => "vector"
  | pipe _ => "pipe"

/-- Only `true` and the number one select the first branch of a conditional. -/
def isTruthy : Value → Bool
  | boolean b => b
  | number x => x == 1.0
  | _ => false

/-- Printed numbers have an exponent below `1e-04` and from `1e+06` on. -/
def numberStyle : Decimal.Style where
  positional e := -4 ≤ e && e < 6
  infinity := "+Inf"
  negativeInfinity := "-Inf"

/-- A value as it is printed. -/
def display : Value → String
  | nil => "<nil>"
  | number x => Decimal.write numberStyle x
  | text s => s
  | byte b => String.ofList (Decimal.digitsOf b.toNat)
  | boolean true => "true"
  | boolean false => "false"
  | reference name => name
  | blob _ => "<blob>"
  | list _ => "<list>"
  | vector _ => "<vector>"
  | pipe _ => "<pipe>"

end Value

end DualStack
