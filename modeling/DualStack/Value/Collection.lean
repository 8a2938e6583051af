/-
Values that hold a sequence.

Blobs, lists and vectors are one idea, a finite sequence of values: `elements?`
tells it, and size, indexing and insertion go by it.  A list grows at the front, a
vector at the end; a blob grows at the end and takes only bytes, or numbers that are
one.  Texts have a size, in bytes, and nothing else.

An index is a number, cut toward zero, or a range: a list or a vector whose first two
elements are the numbers where the range starts and ends.  An index that fits
nothing yields `nil`.  What an index asks for is found out once, for all three; each
of them says how long it is, how it gets at an element, and how it cuts out a part.
-/
import DualStack.Value

namespace DualStack.Value

/-- The elements of a value that holds a sequence. -/
def elements? : Value → Option (List Value)
  | blob bytes => some (bytes.map byte)
  | list chain => some chain.cells
  | vector elements => some elements
  | _ => none

/-- The size of a value that has one. -/
def size? : Value → Option Nat
  | text s => some s.utf8ByteSize
  | blob bytes => some bytes.length
  | list chain => some chain.length
  | vector elements => some elements.length
  | _ => none

/-- A number as a position: cut toward zero, and none below zero or for NaN. -/
def position? (x : Float) : Option Nat :=
  if 0.0 ≤ x then some x.toUInt64.toNat else none

/-- What an index selects. -/
inductive Selection where
  /-- One element. -/
  | single (position : Nat)
  /-- The elements from `first` up to but not including `last`. -/
  | range (first last : Nat)

/-- The range that the first two of some values stand for. -/
def range? : List Value → Option Selection
  | number x :: number y :: _ =>
    match position? x, position? y with
    | some first, some last => some (.range first last)
    | _, _ => none
  | _ => none

/-- What a value selects when it is used as an index. -/
def selection? : Value → Option Selection
  | number x => (position? x).map .single
  | i => range? i.members

/-- What is selected from a sequence of the given length: what `get` gives at a position, what
`slice` cuts out for a range within the sequence, and otherwise `nil`. -/
def select (length : Nat) (get : Nat → Option Value) (slice : Nat → Nat → Value) :
    Option Selection → Value
  | some (.single n) => (get n).getD nil
  | some (.range first last) =>
    if first ≤ last ∧ last ≤ length then slice first last else nil
  | none => nil

/-- What an index selects from a value that holds a sequence: an element, a sequence of the
same kind, or `nil`. -/
def index? (v : Value) (i : Value) : Option Value :=
  match v with
  | blob bytes =>
    some (select bytes.length (fun n => bytes[n]?.map byte)
      (fun first last => blob ((bytes.take last).drop first)) i.selection?)
  | list chain =>
    some (select chain.length chain.get?
      (fun first last => list (chain.slice first last)) i.selection?)
  | vector elements =>
    some (select elements.length (elements[·]?)
      (fun first last => vector ((elements.take last).drop first)) i.selection?)
  | _ => none

/-- The byte a value stands for when it goes into a blob. -/
def toByte? : Value → Option UInt8
  | byte b => some b
  | number x => if 0.0 ≤ x ∧ x ≤ 255.0 ∧ x.toUInt8.toFloat == x then some x.toUInt8 else none
  | _ => none

/-- A value that holds a sequence, with one more element. -/
def insert? (v : Value) (new : Value) : Option Value :=
  match v with
  | blob bytes => some (blob (bytes ++ new.toByte?.toList))
  | list chain => some (list (chain.prepend new))
  | vector elements => some (vector (elements ++ [new]))
  | _ => none

end DualStack.Value
