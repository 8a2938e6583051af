/-
Whole numbers among the doubles.

Integers of magnitude up to `2 ^ 53` are doubles, and on them the arithmetic of a
counting loop is exact: adding one gives the next integer, and comparing two gives
what comparing the integers gives.  Both come from what an unpacked double stands
for, `Denotes`.  A positive double orders by its exponent first and by its mantissa
then, and that is the order of the numbers (`compare_magnitudes`); and a sum is
computed without loss before it is rounded once, so it is the double that the exact
sum rounds to (`Denotes.add_rounds`), and exact whenever that is a double itself
(`Denotes.add`).

Zero is the one number that two doubles stand for.  All others are known from what
they stand for (`Denotes.unique`).
-/
import DualStack.Proofs.Doubles

namespace DualStack.Binary

open Float.Model Float.Model.UnpackedFloat

/-- The number a finite unpacked double stands for. -/
inductive Denotes : UnpackedFloat → ℚ → Prop
  | zero (s : Sign) : Denotes (.zero s) 0
  | finite {m : Nat} {q : Int} (s : Sign) (hc : Canonical m q) (hq : q ≤ 971) :
      Denotes (.finite s m q hc.pos) ((s.apply m : Int) * 2 ^ q)

/-- A positive number that is a double. -/
def IsDouble (v : ℚ) : Prop :=
  ∃ m q, Canonical m q ∧ q ≤ 971 ∧ (m : ℚ) * 2 ^ q = v

/-- What a number rounds to: the double that owns it, and zero for zero itself. -/
inductive RoundsTo : ℚ → ℚ → Prop
  | zero : RoundsTo 0 0
  | positive {m : Nat} {q : Int} {v : ℚ} (hc : Canonical m q) (hq : q ≤ 971) (ho : Owns m q v) :
      RoundsTo v (m * 2 ^ q)
  | negative {m : Nat} {q : Int} {v : ℚ} (hc : Canonical m q) (hq : q ≤ 971)
      (ho : Owns m q (-v)) : RoundsTo v (-(m * 2 ^ q))

/-! ### Order -/

section Order

variable {m₁ m₂ : Nat} {q₁ q₂ : Int}

theorem magnitude_pos (hc : Canonical m₁ q₁) : (0 : ℚ) < m₁ * 2 ^ q₁ :=
  mul_pos (by exact_mod_cast hc.pos) (two_zpow_pos q₁)

/-- A larger exponent makes a larger number: above the smallest exponent mantissas are full. -/
theorem magnitude_lt (h₁ : Canonical m₁ q₁) (h₂ : Canonical m₂ q₂) (hlt : q₁ < q₂) :
    (m₁ : ℚ) * 2 ^ q₁ < m₂ * 2 ^ q₂ := by
  have hleast := h₁.le
  have hfull : (2 : ℚ) ^ 52 ≤ m₂ := by exact_mod_cast h₂.full.resolve_right (by omega)
  have hwide : (m₁ : ℚ) < 2 ^ 53 := by exact_mod_cast h₁.lt
  have hdouble : (2 : ℚ) ^ (q₁ + 1) ≤ 2 ^ q₂ := (zpow_le_zpow_iff_right₀ one_lt_two).mpr hlt
  calc (m₁ : ℚ) * 2 ^ q₁ < 2 ^ 53 * 2 ^ q₁ := mul_lt_mul_of_pos_right hwide (two_zpow_pos q₁)
    _ = 2 ^ 52 * 2 ^ (q₁ + 1) := by
        rw [zpow_add_one₀ two_ne_zero]
        ring
    _ ≤ m₂ * 2 ^ q₂ := mul_le_mul hfull hdouble (two_zpow_pos _).le (by positivity)

/-- Exponents first, mantissas then: this is the order of the numbers. -/
theorem compare_magnitudes (h₁ : Canonical m₁ q₁) (h₂ : Canonical m₂ q₂) :
    (compare q₁ q₂).then (compare m₁ m₂) = compare ((m₁ : ℚ) * 2 ^ q₁) (m₂ * 2 ^ q₂) := by
  have hpos := two_zpow_pos q₁
  rcases lt_trichotomy q₁ q₂ with hlt | rfl | hgt
  · rw [compare_lt_iff_lt.mpr hlt, compare_lt_iff_lt.mpr (magnitude_lt h₁ h₂ hlt)]
    rfl
  · rw [compare_eq_iff_eq.mpr rfl]
    show compare m₁ m₂ = _
    rcases lt_trichotomy m₁ m₂ with hlt | rfl | hgt
    · have hcast : (m₁ : ℚ) < m₂ := by exact_mod_cast hlt
      rw [compare_lt_iff_lt.mpr hlt, compare_lt_iff_lt.mpr (mul_lt_mul_of_pos_right hcast hpos)]
    · rw [compare_eq_iff_eq.mpr rfl, compare_eq_iff_eq.mpr rfl]
    · have hcast : (m₂ : ℚ) < m₁ := by exact_mod_cast hgt
      rw [compare_gt_iff_gt.mpr hgt, compare_gt_iff_gt.mpr (mul_lt_mul_of_pos_right hcast hpos)]
  · rw [compare_gt_iff_gt.mpr hgt, compare_gt_iff_gt.mpr (magnitude_lt h₂ h₁ hgt)]
    rfl

/-- Two positive doubles of the same magnitude are the same. -/
theorem canonical_unique (h₁ : Canonical m₁ q₁) (h₂ : Canonical m₂ q₂)
    (hvalue : (m₁ : ℚ) * 2 ^ q₁ = m₂ * 2 ^ q₂) : m₁ = m₂ ∧ q₁ = q₂ := by
  have hsame := compare_magnitudes h₁ h₂
  rw [compare_eq_iff_eq.mpr hvalue, Ordering.then_eq_eq] at hsame
  exact ⟨compare_eq_iff_eq.mp hsame.2, compare_eq_iff_eq.mp hsame.1⟩

theorem compare_neg (x y : ℚ) : compare (-x) (-y) = (compare x y).swap := by
  rcases lt_trichotomy x y with hlt | rfl | hgt
  · rw [compare_lt_iff_lt.mpr hlt, compare_gt_iff_gt.mpr (neg_lt_neg hlt)]
    rfl
  · rw [compare_eq_iff_eq.mpr rfl, compare_eq_iff_eq.mpr rfl]
    rfl
  · rw [compare_gt_iff_gt.mpr hgt, compare_lt_iff_lt.mpr (neg_lt_neg hgt)]
    rfl

theorem apply_positive : ((Sign.positive.apply m₁ : Int) : ℚ) * 2 ^ q₁ = m₁ * 2 ^ q₁ := by
  simp [Sign.apply]

theorem apply_negative : ((Sign.negative.apply m₁ : Int) : ℚ) * 2 ^ q₁ = -(m₁ * 2 ^ q₁) := by
  simp [Sign.apply]

end Order

/-! ### Rounding what is a double already -/

section Exact

variable {m k : Nat} {q e : Int}

/-- Lowering the exponent keeps the value, and the position of its first bit. -/
theorem decreaseExponent_value {t : Int} (ht : t ≤ e) :
    (decreaseExponent k e t).2 = t ∧ ((decreaseExponent k e t).1 : ℚ) * 2 ^ t = k * 2 ^ e := by
  have hcast : ((e - t).toNat : Int) = e - t := Int.toNat_of_nonneg (by omega)
  unfold decreaseExponent
  dsimp only
  rw [hcast, Nat.shiftLeft_eq]
  refine ⟨by omega, ?_⟩
  push_cast
  rw [mul_assoc, ← zpow_natCast, ← zpow_add₀ two_ne_zero, hcast]
  congr 2
  omega

/-- A value rounds to the double that owns it. -/
theorem round_of_owner (hk : 0 < k) (hc : Canonical m q) (ho : Owns m q (k * 2 ^ e))
    (s : Sign) : UnpackedFloat.round .binary64 s k e = .finite s m q hc.pos := by
  unfold UnpackedFloat.round
  dsimp only
  generalize htarget : Format.binary64.targetExponent (totalExponent k e) = t
  by_cases ht : t ≤ e
  · obtain ⟨hexponent, hsame⟩ := decreaseExponent_value (k := k) ht
    have hfull : 2 ^ 52 ≤ (decreaseExponent k e t).1 ∨ (decreaseExponent k e t).2 ≤ -1074 := by
      rw [hexponent]
      rw [targetExponent_eq] at htarget
      by_cases hsmall : t ≤ -1074
      · exact Or.inr hsmall
      · left
        -- All 53 bits are in use: the first one is shifted to its place.
        have hlog := Nat.log2_self_le hk.ne'
        have hshift : 52 = k.log2 + (e - t).toNat := by
          unfold totalExponent at htarget
          omega
        unfold decreaseExponent
        dsimp only
        rw [Nat.shiftLeft_eq, hshift, Nat.pow_add]
        exact Nat.mul_le_mul_right _ hlog
    have howns : Owns m q ((decreaseExponent k e t).1 * 2 ^ (decreaseExponent k e t).2) := by
      rw [hexponent, hsame]
      exact ho
    exact round_exact_of_owns hc howns hfull s
  · have hstay : decreaseExponent k e t = (k, e) := by
      have hzero : (e - t).toNat = 0 := by omega
      simp [decreaseExponent, hzero]
    rw [hstay]
    have hmarks : Marks (.ofMantissaAndAccuracy k .exact) (k * 2 ^ e / 2 ^ e) := by
      rw [mul_div_cancel_right₀ _ (two_zpow_pos e).ne']
      exact .exact k
    exact round_of_owns hc ho hmarks (by omega) s

/-- Only positive numbers have an owner. -/
theorem Owns.pos {v : ℚ} (hc : Canonical m q) (ho : Owns m q v) : 0 < v := by
  have hone : (1 : ℚ) ≤ m := by exact_mod_cast hc.pos
  have hunits : 0 < v / 2 ^ q := by linarith [ho.low]
  exact (div_pos_iff_of_pos_right (two_zpow_pos q)).mp hunits

/-- A double rounds to itself. -/
theorem RoundsTo.self {v : ℚ} (h : v = 0 ∨ IsDouble |v|) : RoundsTo v v := by
  rcases h with rfl | ⟨m, q, hc, hq, hvalue⟩
  · exact .zero
  · have hself := Owns.self m q
    rw [hvalue] at hself
    rcases le_total 0 v with hpos | hneg
    · rw [abs_of_nonneg hpos] at hself hvalue
      have hrounds := RoundsTo.positive hc hq hself
      rwa [hvalue] at hrounds
    · rw [abs_of_nonpos hneg] at hself hvalue
      have hrounds := RoundsTo.negative hc hq hself
      rwa [hvalue, neg_neg] at hrounds

end Exact

namespace Denotes

variable {u v : UnpackedFloat} {a b : ℚ}

theorem positive {m : Nat} {q : Int} (hc : Canonical m q) :
    0 < ((Sign.positive.apply m : Int) : ℚ) * 2 ^ q := by
  rw [apply_positive]
  exact magnitude_pos hc

theorem negative {m : Nat} {q : Int} (hc : Canonical m q) :
    ((Sign.negative.apply m : Int) : ℚ) * 2 ^ q < 0 := by
  rw [apply_negative]
  exact neg_neg_of_pos (magnitude_pos hc)

theorem ne_zero {m : Nat} {q : Int} (s : Sign) (hc : Canonical m q) :
    ((s.apply m : Int) : ℚ) * 2 ^ q ≠ 0 := by
  cases s with
  | positive => exact (positive hc).ne'
  | negative => exact (negative hc).ne

/-- **Comparing doubles compares what they stand for.** -/
theorem compare (hu : Denotes u a) (hv : Denotes v b) :
    u.compare v = some (Ord.compare a b) := by
  cases hu with
  | zero s =>
      cases hv with
      | zero t =>
          rw [compare_eq_iff_eq.mpr rfl]
          rfl
      | finite t hc hq =>
          cases t with
          | positive =>
              rw [compare_lt_iff_lt.mpr (positive hc)]
              rfl
          | negative =>
              rw [compare_gt_iff_gt.mpr (negative hc)]
              rfl
  | @finite m q s hc hq =>
      cases hv with
      | zero t =>
          cases s with
          | positive =>
              rw [compare_gt_iff_gt.mpr (positive hc)]
              rfl
          | negative =>
              rw [compare_lt_iff_lt.mpr (negative hc)]
              rfl
      | @finite m' q' t hc' hq' =>
          cases s with
          | positive =>
              cases t with
              | positive =>
                  show some ((Ord.compare q q').then (Ord.compare m m')) = _
                  rw [compare_magnitudes hc hc', apply_positive, apply_positive]
              | negative =>
                  rw [compare_gt_iff_gt.mpr ((negative hc').trans (positive hc))]
                  rfl
          | negative =>
              cases t with
              | positive =>
                  rw [compare_lt_iff_lt.mpr ((negative hc).trans (positive hc'))]
                  rfl
              | negative =>
                  show some ((Ord.compare q q').then (Ord.compare m m')).swap = _
                  rw [compare_magnitudes hc hc', apply_negative, apply_negative, compare_neg]

/-- A double is known from the number it stands for, unless that is zero. -/
theorem unique (hu : Denotes u a) (hv : Denotes v a) (ha : a ≠ 0) : u = v := by
  cases hu with
  | zero s => exact absurd rfl ha
  | @finite m q s hc hq =>
      generalize hvalue : ((s.apply m : Int) : ℚ) * 2 ^ q = a at hv ha
      cases hv with
      | zero t => exact absurd rfl ha
      | @finite m' q' t hc' hq' =>
          cases s with
          | positive =>
              cases t with
              | positive =>
                  rw [apply_positive, apply_positive] at hvalue
                  obtain ⟨rfl, rfl⟩ := canonical_unique hc hc' hvalue
                  rfl
              | negative =>
                  have hpos := positive hc
                  rw [hvalue] at hpos
                  exact absurd hpos (negative hc').le.not_gt
          | negative =>
              cases t with
              | positive =>
                  have hneg := negative hc
                  rw [hvalue] at hneg
                  exact absurd hneg (positive hc').le.not_gt
              | negative =>
                  rw [apply_negative, apply_negative] at hvalue
                  obtain ⟨rfl, rfl⟩ := canonical_unique hc hc' (neg_injective hvalue)
                  rfl

/-- Packing and unpacking changes nothing. -/
theorem unpack_pack (hu : Denotes u a) : (Float.Model.pack u).unpack = u := by
  cases hu with
  | zero s => cases s <;> rfl
  | finite s hc hq => exact Binary.unpack_pack hc hq s

/-- An integer times a power of two is normalized to what it rounds to. -/
theorem normalize {z : Int} {e : Int} {c : ℚ} (h : RoundsTo (z * 2 ^ e) c) (s : Sign) :
    Denotes (UnpackedFloat.normalize .binary64 z e s) c := by
  have hpow := two_zpow_pos e
  unfold UnpackedFloat.normalize
  generalize hv : (z : ℚ) * 2 ^ e = v at h
  cases h with
  | zero =>
      have hz : z = 0 := by exact_mod_cast (mul_eq_zero.mp hv).resolve_right hpow.ne'
      rw [Int.compare_eq_eq.mpr hz]
      exact .zero s
  | @positive m q _ hc hq ho =>
      have hz : 0 < z := by
        have hcast : (0 : ℚ) < z := (mul_pos_iff_of_pos_right hpow).mp (hv ▸ ho.pos hc)
        exact_mod_cast hcast
      have hcast : ((z.toNat : Nat) : ℚ) = z := by
        exact_mod_cast congrArg (Int.cast (R := ℚ)) (Int.toNat_of_nonneg hz.le)
      rw [Int.compare_eq_gt.mpr hz]
      dsimp only
      rw [round_of_owner (by omega) hc (by rw [hcast, hv]; exact ho), ← apply_positive]
      exact .finite .positive hc hq
  | @negative m q _ hc hq ho =>
      have hz : z < 0 := by
        have hcast : (z : ℚ) < 0 := by
          rw [← neg_pos, ← mul_pos_iff_of_pos_right hpow, neg_mul, hv]
          exact ho.pos hc
        exact_mod_cast hcast
      have hcast : (((-z).toNat : Nat) : ℚ) = -(z : ℚ) := by
        exact_mod_cast congrArg (Int.cast (R := ℚ)) (Int.toNat_of_nonneg (by omega : 0 ≤ -z))
      rw [Int.compare_eq_lt.mpr hz]
      dsimp only
      rw [round_of_owner (by omega) hc (by rw [hcast, neg_mul, hv]; exact ho), ← apply_negative]
      exact .finite .negative hc hq

/-- An operand of a sum, brought to the smaller of the two exponents. -/
theorem aligned {m : Nat} {q t : Int} (ht : t ≤ q) (s : Sign) :
    ((s.apply (decreaseExponent m q t).1 : Int) : ℚ) * 2 ^ t = (s.apply m : Int) * 2 ^ q := by
  have hvalue := (decreaseExponent_value (k := m) ht).2
  cases s with
  | positive => rw [apply_positive, apply_positive, hvalue]
  | negative => rw [apply_negative, apply_negative, hvalue]

/-- **The sum of two numbers other than zero is what the exact sum rounds to.** -/
theorem add_rounds {c : ℚ} (hu : Denotes u a) (hv : Denotes v b) (ha : a ≠ 0) (hb : b ≠ 0)
    (h : RoundsTo (a + b) c) : Denotes (UnpackedFloat.add .binary64 u v) c := by
  cases hu with
  | zero s => exact absurd rfl ha
  | @finite m q s hc hq =>
      cases hv with
      | zero t => exact absurd rfl hb
      | @finite m' q' t hc' hq' =>
          have hfirst := aligned (m := m) (min_le_left q q') s
          have hsecond := aligned (m := m') (min_le_right q q') t
          have hsum : ((s.apply (decreaseExponent m q (min q q')).1 +
              t.apply (decreaseExponent m' q' (min q q')).1 : Int) : ℚ) * 2 ^ min q q' =
              (s.apply m : Int) * 2 ^ q + (t.apply m' : Int) * 2 ^ q' := by
            rw [Int.cast_add, add_mul, hfirst, hsecond]
          rw [← hsum] at h
          exact normalize h .positive

/-- A sum is exact if the exact sum is a double. -/
theorem add (hu : Denotes u a) (hv : Denotes v b) (h : a + b = 0 ∨ IsDouble |a + b|) :
    Denotes (UnpackedFloat.add .binary64 u v) (a + b) := by
  have hu' := hu
  cases hu with
  | zero s =>
      rw [zero_add]
      cases hv with
      | zero t => cases s <;> cases t <;> exact .zero _
      | finite t hc hq => exact .finite t hc hq
  | finite s hc hq =>
      have hv' := hv
      cases hv with
      | zero t =>
          rw [add_zero]
          exact .finite s hc hq
      | finite t hc' hq' => exact hu'.add_rounds hv' (ne_zero s hc) (ne_zero t hc') (.self h)

section Floats

variable {x y : Float}

theorem lt_iff (hx : Denotes x.toModel.unpack a) (hy : Denotes y.toModel.unpack b) :
    x < y ↔ a < b := by
  show decide ((UnpackedFloat.compare _ _ == some Ordering.lt) = true) = true ↔ _
  rw [hx.compare hy, decide_eq_true_iff, beq_iff_eq, Option.some.injEq, compare_lt_iff_lt]

theorem le_iff (hx : Denotes x.toModel.unpack a) (hy : Denotes y.toModel.unpack b) :
    x ≤ y ↔ a ≤ b := by
  show decide ((Option.any (·.isLE) (UnpackedFloat.compare _ _)) = true) = true ↔ _
  rw [hx.compare hy, decide_eq_true_iff, Option.any_some, Ordering.isLE_iff_ne_gt,
    compare_gt_iff_gt, not_lt]

theorem beq_iff (hx : Denotes x.toModel.unpack a) (hy : Denotes y.toModel.unpack b) :
    (x == y) = true ↔ a = b := by
  show (UnpackedFloat.compare _ _ == some Ordering.eq) = true ↔ _
  rw [hx.compare hy, beq_iff_eq, Option.some.injEq, compare_eq_iff_eq]

end Floats

end Denotes

/-! ### Integers -/

/-- Naturals up to `2 ^ 53` are doubles. -/
theorem isDouble_natCast {n : Nat} (hpos : 0 < n) (hle : n ≤ 2 ^ 53) : IsDouble n := by
  rcases hle.lt_or_eq with hlt | rfl
  · have hc := canonical_shift hpos hlt
    have hlog : n.log2 < 53 := (Nat.log2_lt hpos.ne').mpr hlt
    refine ⟨_, _, hc, by omega, ?_⟩
    rw [Nat.shiftLeft_eq, zero_sub, zpow_neg, zpow_natCast]
    push_cast
    field_simp
  · exact ⟨2 ^ 52, 1, ⟨by norm_num, by norm_num, by norm_num, Or.inl le_rfl⟩, by norm_num,
      by norm_num⟩

theorem isDouble_abs_intCast {i : Int} (hzero : i ≠ 0) (hle : |i| ≤ 2 ^ 53) :
    IsDouble |(i : ℚ)| := by
  have hcast : |(i : ℚ)| = (i.natAbs : ℚ) := by
    rw [← Int.cast_abs, Int.abs_eq_natAbs, Int.cast_natCast]
  rw [hcast]
  refine isDouble_natCast (Int.natAbs_pos.mpr hzero) ?_
  rw [Int.abs_eq_natAbs] at hle
  omega

/-- A natural is made a double by way of the product with one. -/
theorem ofNat_eq {n m : Nat} {q : Int} (hlt : n < 2 ^ 53) (hc : Canonical m q)
    (hvalue : (m : ℚ) * 2 ^ q = n) :
    Float.ofNat n = .ofModel (.pack (.finite .positive m q hc.pos)) := by
  have hpos : 0 < n := by
    have hcast : (0 : ℚ) < n := hvalue ▸ magnitude_pos hc
    exact_mod_cast hcast
  obtain ⟨m₁, q₁, h₁, hnat, hnatValue⟩ := unpack_ofNat hpos hlt
  have hone : (Float.exactlyRepresentablePowersOfTen[0]).toModel.unpack =
      .finite .positive (2 ^ 52) (-52) (by decide) := rfl
  have howns : Owns m q ((m₁ * 2 ^ 52 : Nat) * 2 ^ (q₁ + -52)) := by
    have hproduct : ((m₁ * 2 ^ 52 : Nat) : ℚ) * 2 ^ (q₁ + -52) = m * 2 ^ q := by
      rw [hvalue, ← hnatValue, zpow_add₀ two_ne_zero]
      push_cast
      ring
    rw [hproduct]
    exact .self m q
  show Float.ofScientific n false 0 = _
  unfold Float.ofScientific
  rw [dif_pos ⟨hlt, by norm_num⟩]
  dsimp only
  rw [if_neg (by simp), toFloat_toUInt64 hlt]
  show Float.ofModel (.pack (UnpackedFloat.mul .binary64 (Float.Model.ofNat n).unpack _)) = _
  rw [hnat, hone]
  exact congrArg (fun u => Float.ofModel (.pack u))
    (round_exact_of_owns hc howns (Or.inl (Nat.le_mul_of_pos_left _ h₁)) .positive)

theorem denotes_ofNat {n : Nat} (hle : n ≤ 2 ^ 53) :
    Denotes (Float.ofNat n).toModel.unpack n := by
  rcases hle.lt_or_eq with hlt | rfl
  · rcases Nat.eq_zero_or_pos n with rfl | hpos
    · rw [Nat.cast_zero]
      exact .zero .positive
    · obtain ⟨m, q, hc, hq, hvalue⟩ := isDouble_natCast hpos hle
      have hfinite := Denotes.finite .positive hc hq
      rw [apply_positive, hvalue] at hfinite
      rw [ofNat_eq hlt hc hvalue]
      show Denotes (Float.Model.pack _).unpack _
      rw [hfinite.unpack_pack]
      exact hfinite
  · have hc : Canonical (2 ^ 52) 1 := ⟨by norm_num, by norm_num, by norm_num, Or.inl le_rfl⟩
    have hfinite := Denotes.finite .positive hc (by norm_num)
    have hvalue : ((2 ^ 52 : Nat) : ℚ) * 2 ^ (1 : Int) = (2 ^ 53 : Nat) := by norm_num
    rw [apply_positive, hvalue] at hfinite
    exact hfinite

/-- The opposite double stands for the opposite number. -/
theorem Denotes.neg {u : UnpackedFloat} {a : ℚ} (hu : Denotes u a) : Denotes u.neg (-a) := by
  cases hu with
  | zero s =>
      rw [neg_zero]
      exact .zero _
  | @finite m q s hc hq =>
      have hfinite := Denotes.finite (-s) hc hq
      have hsign : (((-s).apply m : Int) : ℚ) * 2 ^ q = -((s.apply m : Int) * 2 ^ q) := by
        cases s with
        | positive => rw [apply_positive]; exact apply_negative
        | negative => rw [apply_negative, neg_neg]; exact apply_positive
      rw [hsign] at hfinite
      exact hfinite

/-- **An integer of magnitude up to `2 ^ 53` is the double that stands for it.** -/
theorem denotes_ofInt {i : Int} (hle : |i| ≤ 2 ^ 53) :
    Denotes (Float.ofInt i).toModel.unpack i := by
  rw [Int.abs_eq_natAbs] at hle
  cases i with
  | ofNat n =>
      have hn : n ≤ 2 ^ 53 := by exact_mod_cast hle
      rw [Int.ofNat_eq_natCast, Int.cast_natCast]
      exact denotes_ofNat hn
  | negSucc n =>
      have hnat : Denotes (Float.ofNat (n + 1)).toModel.unpack (n + 1 : Nat) :=
        denotes_ofNat (by omega)
      have hneg := hnat.neg
      have hcast : ((Int.negSucc n : Int) : ℚ) = -((n + 1 : Nat) : ℚ) := by
        rw [Int.negSucc_eq]
        push_cast
        ring
      rw [hcast]
      show Denotes (Float.Model.pack _).unpack _
      rw [hneg.unpack_pack]
      exact hneg

theorem denotes_one : Denotes (1.0 : Float).toModel.unpack 1 := by
  have hsame : (1.0 : Float) = Float.ofInt 1 := by decide +kernel
  have hone : Denotes (Float.ofInt 1).toModel.unpack (1 : Int) := denotes_ofInt (by norm_num)
  rwa [hsame, ← Int.cast_one]

section Integers

variable {i j : Int}

/-- Adding one to an integer gives the next one. -/
theorem ofInt_add_one (hi : |i| ≤ 2 ^ 53) (hnext : |i + 1| ≤ 2 ^ 53) :
    Float.ofInt i + 1.0 = Float.ofInt (i + 1) := by
  by_cases hzero : i + 1 = 0
  · -- One and its opposite cancel to the positive zero.
    obtain rfl : i = -1 := by omega
    decide +kernel
  · have hvalue : (i : ℚ) + 1 = (i + 1 : Int) := by push_cast; rfl
    have hsum := (denotes_ofInt hi).add denotes_one
      (by rw [hvalue]; exact Or.inr (isDouble_abs_intCast hzero hnext))
    rw [hvalue] at hsum
    have hsame := hsum.unique (denotes_ofInt hnext) (by exact_mod_cast hzero)
    show Float.ofModel (.pack _) = _
    rw [hsame, pack_of_unpack rfl]

/-- Comparing integers as doubles compares them as integers. -/
theorem ofInt_lt_ofInt (hi : |i| ≤ 2 ^ 53) (hj : |j| ≤ 2 ^ 53) :
    Float.ofInt i < Float.ofInt j ↔ i < j :=
  ((denotes_ofInt hi).lt_iff (denotes_ofInt hj)).trans Int.cast_lt

/-- No integer but zero equals zero as a double. -/
theorem ofInt_beq_zero (hi : |i| ≤ 2 ^ 53) : (Float.ofInt i == 0.0) = true ↔ i = 0 := by
  have hzero : Denotes (0.0 : Float).toModel.unpack 0 := .zero .positive
  exact ((denotes_ofInt hi).beq_iff hzero).trans Int.cast_eq_zero

end Integers

end DualStack.Binary
