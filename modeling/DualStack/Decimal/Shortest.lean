/-
The fewest decimal digits that name a binary number.

A number `m · 2 ^ q` of the double format owns the interval of reals that round
to it: half a unit to each side, a quarter below when `m` is the smallest normal
mantissa, since the neighbours below lie twice as dense.  The ends belong to it
exactly when `m` is even.  A decimal names the number when it lies in that
interval.

The search goes through the grids of 1, 2, … 17 significant digits, coarsest
first.  On each grid only the two neighbours of the number matter: if any point
of the grid lies in the interval, one of them does.  The first grid with a hit
gives the digits; of two hits the nearer is taken, and a tie goes up.  All of it
is exact arithmetic on naturals.
-/

namespace DualStack.Decimal

/-- The positive decimal number `coefficient · 10 ^ exponent`. -/
structure Scaled where
  coefficient : Nat
  exponent : Int
deriving DecidableEq, Repr

/-- The interval of reals that round to a binary number: `low`, `value` and `high` are
numerators over one common denominator `unit`, and `closed` says whether the ends belong. -/
structure Interval where
  low : Nat
  value : Nat
  high : Nat
  unit : Nat
  closed : Bool

/-- The interval owned by `m · 2 ^ q`, in quarters of a unit in the last place. -/
def Interval.ofBinary (m : Nat) (q : Int) : Interval :=
  let scale := Nat.pow 2 (q - 2).toNat
  { low := (if m = Nat.pow 2 52 then 4 * m - 1 else 4 * m - 2) * scale
    value := 4 * m * scale
    high := (4 * m + 2) * scale
    unit := Nat.pow 2 (2 - q).toNat
    closed := m % 2 = 0 }

/-- Whether the rational `n / unit` lies in the interval. -/
def Interval.contains (i : Interval) (n : Nat) : Bool :=
  if i.closed then i.low ≤ n && n ≤ i.high else i.low < n && n < i.high

/-- The interval with every numerator and the denominator brought to the grid of step
`10 ^ e`: a point `k` of that grid has numerator `k * unit` afterwards. -/
def Interval.onGrid (i : Interval) (e : Int) : Interval :=
  let up := Nat.pow 10 (-e).toNat
  { i with
    low := i.low * up
    value := i.value * up
    high := i.high * up
    unit := i.unit * Nat.pow 10 e.toNat }

/-- The point of the grid of step `10 ^ e` that names the number, if one of the two
neighbours of the value does; the nearer one if both do, the upper one on a tie. -/
def Interval.pick (i : Interval) (e : Int) : Option Nat :=
  let g := i.onGrid e
  let below := g.value / g.unit
  let above := below + 1
  match g.contains (below * g.unit), g.contains (above * g.unit) with
  | true, true => if 2 * (g.value - below * g.unit) < g.unit then some below else some above
  | true, false => some below
  | false, true => some above
  | false, false => none

/-- How many zeros follow the decimal point of `n / unit`, for a fraction below one; at
most `limit`. -/
def zerosAfterPoint (unit : Nat) : Nat → Nat → Nat
  | 0, _ => 0
  | limit + 1, n => if n * 10 < unit then zerosAfterPoint unit limit (n * 10) + 1 else 0

/-- The least `p` with `n / unit < 10 ^ p`: the position of the first digit in front of the
decimal point, counted from the point. -/
def magnitude (n unit : Nat) : Int :=
  if n < unit then -(zerosAfterPoint unit 400 n : Int)
  else ((Nat.toDigits 10 (n / unit)).length : Int)

/-- A decimal with its trailing zeros moved into the exponent. -/
def Scaled.strip (coefficient : Nat) (exponent : Int) : Scaled :=
  if coefficient ≠ 0 ∧ coefficient % 10 = 0 then
    Scaled.strip (coefficient / 10) (exponent + 1)
  else ⟨coefficient, exponent⟩
termination_by coefficient
decreasing_by omega

/-- The largest number of significant digits a double ever needs. -/
def maxDigits : Nat := 17

/-- The shortest decimal that names `m · 2 ^ q`, for a positive `m` of at most 53 bits. -/
def shortest (m : Nat) (q : Int) : Scaled :=
  let i := Interval.ofBinary m q
  let p := magnitude i.value i.unit
  let hit := (List.range maxDigits).findSome? fun n : Nat =>
    let e := p - (n + 1)
    (i.pick e).map fun k => Scaled.strip k e
  hit.getD (Scaled.strip i.value 0)

end DualStack.Decimal
