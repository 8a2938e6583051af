/-
Remainders of numbers.

The remainder of two numbers is that of the integers they are cut to.  It is taken
on 64 bits, where one pair besides a zero divisor is refused: the smallest integer
has no quotient by minus one there, and although the remainder would be zero it is
not given either.  Everywhere else it is the exact remainder of the two integers, with
the sign of the first and smaller than the second, as the nearest double; and exact as
a double too, unless an operand was too large for 64 bits and stands for
`2 ^ 63 - 1`, the only integer among them that no double is cut to.
-/
import DualStack.Proofs.Effects
import DualStack.Proofs.Truncation

namespace DualStack

open Binary Float.Model

/-- An integer is the remainder of a division that rounds toward zero. -/
structure IsRemainder (dividend divisor r : Int) : Prop where
  divides : divisor ∣ dividend - r
  small : |r| < |divisor|
  sign : 0 ≤ r * dividend

theorem isRemainder_tmod {a b : Int} (hb : b ≠ 0) : IsRemainder a b (a.tmod b) where
  divides := ⟨a.tdiv b, by linarith [Int.mul_tdiv_add_tmod a b]⟩
  small := by
    have hlt : a.natAbs % b.natAbs < b.natAbs := Nat.mod_lt _ (Int.natAbs_pos.mpr hb)
    rw [Int.abs_eq_natAbs, Int.abs_eq_natAbs, Int.natAbs_tmod]
    exact_mod_cast hlt
  sign := by
    rcases le_total 0 a with ha | ha
    · exact mul_nonneg (Int.tmod_nonneg b ha) ha
    · have hneg : a.tmod b ≤ 0 := by
        have hopposite := Int.tmod_nonneg b (neg_nonneg.mpr ha)
        rw [Int.neg_tmod] at hopposite
        exact neg_nonneg.mp hopposite
      exact mul_nonneg_of_nonpos_of_nonpos hneg ha

/-! ### On 64 bits -/

section Words

variable {a b r : Int64}

theorem wholeRemainder_isSome_iff : (Value.wholeRemainder a b).isSome ↔
    b.toInt ≠ 0 ∧ ¬ (a.toInt = -2 ^ 63 ∧ b.toInt = -1) := by
  have hzero : b = 0 ↔ b.toInt = 0 := Int64.toInt_inj.symm
  have hleast : a = Int64.minValue ↔ a.toInt = -2 ^ 63 := Int64.toInt_inj.symm
  have hminus : b = -1 ↔ b.toInt = -1 := Int64.toInt_inj.symm
  rw [ne_eq, ← hzero, ← hleast, ← hminus, ← not_or]
  unfold Value.wholeRemainder
  by_cases h : b = 0 ∨ a = Int64.minValue ∧ b = -1
  · simp [h]
  · simp [h]

theorem toInt_of_wholeRemainder (h : Value.wholeRemainder a b = some r) :
    r.toInt = a.toInt.tmod b.toInt := by
  unfold Value.wholeRemainder at h
  split at h
  · exact absurd h (by simp)
  · rw [← Option.some.inj h, Int64.toInt_mod]

theorem abs_toInt_le (a : Int64) : |a.toInt| ≤ 2 ^ 63 :=
  abs_le.mpr ⟨a.le_toInt, a.toInt_lt.le⟩

end Words

/-! ### On numbers -/

/-- The integer a number counts as: cut toward zero, the nearest of 64 bits if it has more, and
zero for NaN. -/
def Value.wholePart (x : Float) : Int :=
  saturated (-2 ^ 63) (2 ^ 63 - 1) x.toModel.unpack

section Numbers

variable {x y : Float}

theorem toInt_whole (x : Float) : (Value.whole x).toInt = Value.wholePart x :=
  toInt_toInt64 x.toModel.unpack

theorem natAbs_truncate {m : Nat} {q : Int} (s : UnpackedFloat.Sign) :
    (truncate ((s.apply m : Int) * 2 ^ q)).natAbs = ⌊(m : ℚ) * 2 ^ q⌋₊ := by
  have hpositive : (truncate ((m : ℚ) * 2 ^ q)).natAbs = ⌊(m : ℚ) * 2 ^ q⌋₊ := by
    rw [truncate_of_nonneg magnitude_nonneg, ← Int.floor_toNat]
    have hfloor : 0 ≤ ⌊(m : ℚ) * 2 ^ q⌋ := Int.floor_nonneg.mpr magnitude_nonneg
    omega
  cases s with
  | positive => rw [apply_positive, hpositive]
  | negative => rw [apply_negative, truncate_neg, Int.natAbs_neg, hpositive]

/-- Below the largest integer of 64 bits a number counts as an integer of few bits. -/
theorem short_wholePart (h : Value.wholePart x < 2 ^ 63 - 1) :
    Short (Value.wholePart x).natAbs := by
  unfold Value.wholePart at h ⊢
  cases hunpack : x.toModel.unpack with
  | notANumber => exact .of_lt (by norm_num [saturated])
  | infinity s =>
      rw [hunpack] at h
      cases s with
      | negative => exact .two_pow 63
      | positive => exact absurd h (by norm_num [saturated])
  | zero s => exact .of_lt (by norm_num [saturated])
  | finite s m q hm =>
      rw [hunpack] at h
      have hshort := Short.floor (q := q) (canonical_of_unpack hunpack).1.lt
      rw [← natAbs_truncate s] at hshort
      dsimp only [saturated] at h ⊢
      generalize truncate ((s.apply m : Int) * 2 ^ q) = t at h hshort ⊢
      by_cases hlow : t ≤ -2 ^ 63
      · have hleast : (max (-2 ^ 63) (min (2 ^ 63 - 1) t)).natAbs = 2 ^ 63 := by omega
        rw [hleast]
        exact .two_pow 63
      · have hsame : max (-2 ^ 63) (min (2 ^ 63 - 1) t) = t := by omega
        rw [hsame]
        exact hshort

/-- The remainder of two numbers, neither of them too large for 64 bits, is a double. -/
theorem isDouble_tmod (hx : Value.wholePart x < 2 ^ 63 - 1) (hy : Value.wholePart y < 2 ^ 63 - 1)
    {r : Int64} (hr : r.toInt = (Value.wholePart x).tmod (Value.wholePart y)) :
    ((r.toInt : Int) : ℚ) = 0 ∨ IsDouble |((r.toInt : Int) : ℚ)| := by
  have hshort := (short_wholePart hx).mod (short_wholePart hy)
  rw [← Int.natAbs_tmod, ← hr] at hshort
  have hbits := abs_toInt_le r
  have hcast : |((r.toInt : Int) : ℚ)| = (r.toInt.natAbs : ℚ) := by
    rw [← Int.cast_abs, Int.abs_eq_natAbs, Int.cast_natCast]
  rcases eq_or_ne r.toInt 0 with hzero | hne
  · exact Or.inl (by rw [hzero, Int.cast_zero])
  · rw [hcast]
    rw [Int.abs_eq_natAbs] at hbits
    exact Or.inr (hshort.isDouble (Int.natAbs_pos.mpr hne) (by omega))

theorem remainder_isSome_iff : (Value.remainder (.number x) (.number y)).isSome ↔
    Value.wholePart y ≠ 0 ∧ ¬ (Value.wholePart x = -2 ^ 63 ∧ Value.wholePart y = -1) := by
  rw [Value.remainder, Option.isSome_map, wholeRemainder_isSome_iff, toInt_whole, toInt_whole]

/-- The value of a remainder is the double nearest to that of the integers. -/
theorem remainder_value {v : Value} (h : Value.remainder (.number x) (.number y) = some v) :
    ∃ z r c, v = .number z ∧ IsRemainder (Value.wholePart x) (Value.wholePart y) r ∧
      RoundsTo r c ∧ Denotes z.toModel.unpack c ∧
      (Value.wholePart x < 2 ^ 63 - 1 → Value.wholePart y < 2 ^ 63 - 1 → c = r) := by
  have hdivisor := (remainder_isSome_iff.mp (Option.isSome_of_mem h)).1
  obtain ⟨r, hr, rfl⟩ := Option.map_eq_some_iff.mp h
  have htmod := toInt_of_wholeRemainder hr
  rw [toInt_whole, toInt_whole] at htmod
  have hremainder := isRemainder_tmod (a := Value.wholePart x) hdivisor
  rw [← htmod] at hremainder
  by_cases hlarge : Value.wholePart x < 2 ^ 63 - 1 ∧ Value.wholePart y < 2 ^ 63 - 1
  · have hself := RoundsTo.self (isDouble_tmod hlarge.1 hlarge.2 htmod)
    exact ⟨_, r.toInt, r.toInt, rfl, hremainder, hself, denotes_of_roundsTo hself, fun _ _ => rfl⟩
  · obtain ⟨c, hc⟩ := exists_roundsTo (abs_toInt_le r)
    exact ⟨_, r.toInt, c, rfl, hremainder, hc, denotes_of_roundsTo hc,
      fun hx hy => absurd ⟨hx, hy⟩ hlarge⟩

end Numbers

/-! ### On the data stack -/

namespace Primitive

/-- An operator takes both operands and leaves its result, if it has one. There is always room. -/
theorem binary_run {m : Machine} {below : List Value} {a b : Value}
    (op : Value → Value → Option Value) (hdata : m.data.values = below ++ [a, b]) :
    ∃ data, binary op m = .ok () { m with data } ∧ data.capacity = m.data.capacity ∧
      data.values = below ++ (op a b).toList := by
  have hitems : m.data.items = b :: a :: below.reverse := by
    have hreverse := congrArg List.reverse hdata
    simpa [Stack.values] using hreverse
  have hcapacity : m.data.capacity = below.length + 2 + m.data.free := by
    rw [Stack.capacity, Stack.size, hitems]
    simp
  unfold binary
  rw [Effect.bind_ok (Effect.pop_eq hitems), Effect.bind_ok (Effect.pop_eq rfl)]
  cases op a b with
  | none =>
      refine ⟨⟨below.reverse, m.data.free + 1 + 1⟩, rfl, ?_, by simp [Stack.values]⟩
      rw [hcapacity, Stack.capacity, Stack.size, List.length_reverse]
      ring
  | some v =>
      refine ⟨⟨v :: below.reverse, m.data.free + 1⟩, rfl, ?_, by simp [Stack.values]⟩
      rw [hcapacity, Stack.capacity, Stack.size, List.length_cons, List.length_reverse]
      ring

/--
**When two numbers have a remainder, and which.**

They have one exactly if the divisor, cut toward zero, is not zero, and they are not the
smallest integer of 64 bits and minus one.  It is the double nearest to the remainder of
the two integers, and equal to it if neither number was too large for 64 bits.  The word
takes both numbers off the data stack and leaves the remainder, or nothing, and changes
nothing else.
-/
theorem remainder_missing_at_zero_and_overflow (x y : Float) {m : Machine} {below : List Value}
    (hdata : m.data.values = below ++ [.number x, .number y]) :
    ((Value.remainder (.number x) (.number y)).isSome ↔
      Value.wholePart y ≠ 0 ∧ ¬ (Value.wholePart x = -2 ^ 63 ∧ Value.wholePart y = -1)) ∧
    (∀ v, Value.remainder (.number x) (.number y) = some v →
      ∃ z r c, v = .number z ∧ IsRemainder (Value.wholePart x) (Value.wholePart y) r ∧
        RoundsTo r c ∧ Denotes z.toModel.unpack c ∧
        (Value.wholePart x < 2 ^ 63 - 1 → Value.wholePart y < 2 ^ 63 - 1 → c = r)) ∧
    ∃ data, Primitive.remainder.run m = .ok () { m with data } ∧
      data.capacity = m.data.capacity ∧
      data.values = below ++ (Value.remainder (.number x) (.number y)).toList :=
  ⟨remainder_isSome_iff, fun _ => remainder_value, binary_run Value.remainder hdata⟩

/-- A negative fraction by infinity: the remainder has the sign of the first. -/
theorem remainder_missing_at_zero_and_overflow_infinite :
    let m := { Machine.fresh 2 {} .empty with
      data := ⟨[.number (1.0 / 0.0), .number (-7.5)], 0⟩ }
    m.data.values = [.number (-7.5), .number (1.0 / 0.0)] ∧
    Value.wholePart (-7.5) = -7 ∧ Value.wholePart (1.0 / 0.0) = 2 ^ 63 - 1 ∧
    ∃ data, Primitive.remainder.run m = .ok () { m with data } ∧
      data.values = [.number (-7.0)] := by
  intro m
  have hdata : m.data.values = [] ++ [.number (-7.5), .number (1.0 / 0.0)] := rfl
  have hwhole : Value.wholeRemainder (Value.whole (-7.5)) (Value.whole (1.0 / 0.0)) =
      some (-7) := by
    decide +kernel
  have hfloat : Value.ofWhole (-7) = -7.0 := by decide +kernel
  obtain ⟨-, -, data, hrun, -, hvalues⟩ := remainder_missing_at_zero_and_overflow _ _ hdata
  refine ⟨hdata, ?_, ?_, data, hrun, ?_⟩
  · rw [← toInt_whole]
    decide +kernel
  · rw [← toInt_whole]
    decide +kernel
  · rw [hvalues, Value.remainder, hwhole]
    show [Value.number (Value.ofWhole (-7))] = _
    rw [hfloat]

/-- The smallest integer by minus one: the divisor is not zero and the remainder would be, but
there is none, and both operands are gone. -/
theorem remainder_missing_for_nonzero_divisor :
    let m := { Machine.fresh 2 {} .empty with
      data := ⟨[.number (-1.0), .number (-9223372036854775808.0)], 0⟩ }
    m.data.values = [.number (-9223372036854775808.0), .number (-1.0)] ∧
    Value.wholePart (-9223372036854775808.0) = -2 ^ 63 ∧ Value.wholePart (-1.0) = -1 ∧
    IsRemainder (-2 ^ 63) (-1) 0 ∧
    Value.remainder (.number (-9223372036854775808.0)) (.number (-1.0)) = none ∧
    ∃ data, Primitive.remainder.run m = .ok () { m with data } ∧ data.values = [] := by
  intro m
  have hdata : m.data.values = [] ++ [.number (-9223372036854775808.0), .number (-1.0)] := rfl
  have hwhole : Value.wholeRemainder (Value.whole (-9223372036854775808.0)) (Value.whole (-1.0)) =
      none := by
    decide +kernel
  have hnone : Value.remainder (.number (-9223372036854775808.0)) (.number (-1.0)) = none := by
    rw [Value.remainder, hwhole]
    rfl
  obtain ⟨data, hrun, -, hvalues⟩ := binary_run Value.remainder hdata
  refine ⟨hdata, ?_, ?_, ⟨by norm_num, by norm_num, by norm_num⟩, hnone, data, hrun, ?_⟩
  · rw [← toInt_whole]
    decide +kernel
  · rw [← toInt_whole]
    decide +kernel
  · rw [hvalues, hnone]
    rfl

end Primitive

end DualStack
