/-
Doubles as whole numbers.

To be used as an integer a double is cut toward zero.  Cutting is exact: the bits
behind the point are shifted out and nothing is rounded, so what remains is the
integer part of the number the double stands for (`roundToInt_eq`).  Only then is
the integer brought into the range of its type: too large a number becomes the end
of the range on its side, an infinity likewise, and NaN becomes zero.

Back from an integer to a double there is one rounding, to the nearest.  An integer
that has at most 53 bits followed by zeros is not changed by it.  Doubles cut
toward zero are such integers, and so is the remainder of two of them (`Short.mod`):
it is a multiple of whichever power of two both have, and smaller than either.
-/
import DualStack.Proofs.Increments

namespace DualStack.Binary

open Float.Model Float.Model.UnpackedFloat

/-! ### Cutting toward zero -/

/-- A number cut toward zero. -/
def truncate (v : ℚ) : Int :=
  if 0 ≤ v then ⌊v⌋ else ⌈v⌉

theorem truncate_of_nonneg {v : ℚ} (h : 0 ≤ v) : truncate v = ⌊v⌋ :=
  if_pos h

theorem truncate_neg (v : ℚ) : truncate (-v) = -truncate v := by
  unfold truncate
  rcases lt_trichotomy v 0 with hneg | rfl | hpos
  · rw [if_pos (by linarith), if_neg (by linarith), Int.floor_neg]
  · simp
  · rw [if_neg (by linarith), if_pos hpos.le, Int.ceil_neg]

section Magnitude

variable {m : Nat} {q : Int}

theorem magnitude_nonneg : (0 : ℚ) ≤ m * 2 ^ q :=
  mul_nonneg (Nat.cast_nonneg m) (two_zpow_pos q).le

/-- The bits in front of the point are the integer part. -/
theorem roundToInt_positive : roundToInt .positive m q = ⌊(m : ℚ) * 2 ^ q⌋ := by
  obtain ⟨k, e, hlow, hshift, hvalue⟩ : ∃ (k : Nat) (e : Int), e ≤ 0 ∧
      decreaseExponent m q 0 = (k, e) ∧ (m : ℚ) * 2 ^ q / 2 ^ e = k := by
    rcases le_total 0 q with hq | hq
    · obtain ⟨hexponent, hsame⟩ := decreaseExponent_value (k := m) hq
      refine ⟨(decreaseExponent m q 0).1, 0, le_rfl, Prod.ext rfl hexponent, ?_⟩
      rw [← hsame, zpow_zero, mul_one, div_one]
    · have hstay : (q - 0).toNat = 0 := by omega
      refine ⟨m, q, hq, ?_, mul_div_cancel_right₀ _ (two_zpow_pos q).ne'⟩
      rw [decreaseExponent, hstay, Nat.shiftLeft_zero, Nat.cast_zero, sub_zero]
  have hmarks : Marks (.ofMantissaAndAccuracy k .exact) (m * 2 ^ q / 2 ^ e) := by
    rw [hvalue]
    exact .exact k
  obtain ⟨hfloor, hceil⟩ := (hmarks.shiftToExponent hlow).1.floor
  rw [zpow_zero, div_one] at hfloor hceil
  unfold roundToInt
  rw [hshift]
  exact (Int.floor_eq_iff.mpr ⟨by exact_mod_cast hfloor, by exact_mod_cast hceil⟩).symm

/-- **A double is cut to the integer part of the number it stands for.** -/
theorem roundToInt_eq (s : Sign) : roundToInt s m q = truncate ((s.apply m : Int) * 2 ^ q) := by
  cases s with
  | positive => rw [roundToInt_positive, apply_positive, truncate_of_nonneg magnitude_nonneg]
  | negative =>
      rw [apply_negative, truncate_neg, truncate_of_nonneg magnitude_nonneg,
        ← roundToInt_positive]
      rfl

end Magnitude

/-- A double cut toward zero and brought into a range. The infinities count as its ends and NaN as
zero. -/
def saturated (lo hi : Int) : UnpackedFloat → Int
  | .notANumber => 0
  | .infinity .negative => lo
  | .infinity .positive => hi
  | .zero _ => 0
  | .finite s m q _ => max lo (min hi (truncate ((s.apply m : Int) * 2 ^ q)))

theorem toInt_ofIntClamp (z : Int) :
    (Int64.ofIntClamp z).toInt = max (-2 ^ 63) (min (2 ^ 63 - 1) z) := by
  have hlo := Int64.toInt_minValue
  have hhi := Int64.toInt_maxValue
  by_cases hlow : Int64.minValue.toInt ≤ z
  · by_cases hhigh : z ≤ Int64.maxValue.toInt
    · rw [Int64.toInt_ofIntClamp hlow hhigh]
      omega
    · rw [Int64.ofIntClamp, dif_pos hlow, dif_neg hhigh]
      omega
  · rw [Int64.ofIntClamp, dif_neg hlow]
    omega

theorem toInt_toInt64 (u : UnpackedFloat) :
    u.toInt64.toInt = saturated (-2 ^ 63) (2 ^ 63 - 1) u := by
  unfold UnpackedFloat.toInt64
  rw [toInt_ofIntClamp, Int64.toInt_minValue, Int64.toInt_maxValue]
  cases u with
  | notANumber => rfl
  | infinity s => cases s <;> rfl
  | zero s => rfl
  | finite s m q hm =>
      show max _ (min _ (roundToInt s m q)) = _
      rw [roundToInt_eq]
      rfl

theorem toNat_ofNatClamp (n : Nat) : (UInt64.ofNatClamp n).toNat = min n (2 ^ 64 - 1) := by
  have hsize : UInt64.size = 2 ^ 64 := rfl
  rcases Nat.lt_or_ge n UInt64.size with hfits | hlarge
  · rw [UInt64.toNat_ofNatClamp_of_lt hfits]
    omega
  · rw [UInt64.toNat_ofNatClamp_of_le hlarge]
    omega

theorem toNat_toUInt64 (u : UnpackedFloat) :
    (u.toUInt64.toNat : Int) = saturated 0 (2 ^ 64 - 1) u := by
  unfold UnpackedFloat.toUInt64
  rw [toNat_ofNatClamp]
  cases u with
  | notANumber => rfl
  | infinity s => cases s <;> rfl
  | zero s => rfl
  | finite s m q hm =>
      show ((min (roundToInt s m q).toNat (2 ^ 64 - 1) : Nat) : Int) =
        max 0 (min (2 ^ 64 - 1) (truncate ((s.apply m : Int) * 2 ^ q)))
      rw [roundToInt_eq]
      omega

/-- A range is narrowed by its upper end. -/
theorem min_saturated {limit hi : Int} (hlimit : 0 ≤ limit) (hle : limit ≤ hi) (u : UnpackedFloat) :
    min (saturated 0 hi u) limit = saturated 0 limit u := by
  cases u with
  | notANumber => exact min_eq_left hlimit
  | infinity s =>
      cases s with
      | positive => exact min_eq_right hle
      | negative => exact min_eq_left hlimit
  | zero s => exact min_eq_left hlimit
  | finite s m q hm =>
      show min (max 0 (min hi _)) limit = max 0 (min limit _)
      omega

section Unsigned

variable {u : UnpackedFloat} {a : ℚ}

theorem Denotes.toNat_toInt (hu : Denotes u a) (ha : 0 ≤ a) (lo hi : Int) :
    (UnpackedFloat.toInt lo hi u).toNat = ⌊a⌋₊ := by
  cases hu with
  | zero s => rw [Nat.floor_zero]; rfl
  | @finite m q s hc hq =>
      show (roundToInt s m q).toNat = _
      rw [roundToInt_eq, truncate_of_nonneg ha, Int.floor_toNat]

/-- A number that is not negative, as one of 64 bits. -/
theorem Denotes.toNat_toUInt64 (hu : Denotes u a) (ha : 0 ≤ a) :
    u.toUInt64.toNat = min ⌊a⌋₊ (2 ^ 64 - 1) := by
  rw [UnpackedFloat.toUInt64, toNat_ofNatClamp, hu.toNat_toInt ha]

/-- A number that fits into a byte, as a byte. -/
theorem Denotes.toNat_toUInt8 (hu : Denotes u a) (ha : 0 ≤ a) (hfits : a ≤ 255) :
    u.toUInt8.toNat = ⌊a⌋₊ := by
  have hfloor : ⌊a⌋₊ ≤ 255 := by exact_mod_cast (Nat.floor_le ha).trans hfits
  unfold UnpackedFloat.toUInt8
  rw [hu.toNat_toInt ha, UInt8.toNat_ofNatClamp_of_lt (by unfold UInt8.size; omega)]

end Unsigned

/-! ### Integers as doubles -/

section Integers

variable {n : Int} {c : ℚ}

/-- Every integer of 64 bits rounds to some double. -/
theorem exists_roundsTo (hn : |n| ≤ 2 ^ 63) : ∃ c, RoundsTo (n : ℚ) c := by
  rcases eq_or_ne n 0 with rfl | hzero
  · exact ⟨0, by rw [Int.cast_zero]; exact .zero⟩
  have hone : (1 : ℚ) ≤ |(n : ℚ)| := by exact_mod_cast Int.one_le_abs hzero
  have hleast : (2 : ℚ) ^ (-1022 : Int) ≤ 1 := zpow_le_one_of_nonpos₀ one_le_two (by norm_num)
  obtain ⟨m, q, hc, ho⟩ := exists_owner (hleast.trans hone)
  have hq : q ≤ 971 := by
    -- At least half a unit of the double, an integer of 64 bits bounds the unit.
    have hm : (1 : ℚ) ≤ m := by exact_mod_cast hc.pos
    have hhalf : 1 / 2 ≤ |(n : ℚ)| / 2 ^ q := by linarith [ho.low]
    rw [le_div_iff₀ (two_zpow_pos q)] at hhalf
    have hbits : |(n : ℚ)| ≤ 2 ^ 63 := by exact_mod_cast hn
    have hunit : (2 : ℚ) ^ q ≤ 2 ^ (64 : Int) := by
      norm_num at hbits ⊢
      linarith
    exact ((zpow_le_zpow_iff_right₀ one_lt_two).mp hunit).trans (by norm_num)
  rcases le_total 0 (n : ℚ) with hpos | hneg
  · rw [abs_of_nonneg hpos] at ho
    exact ⟨_, .positive hc hq ho⟩
  · rw [abs_of_nonpos hneg] at ho
    exact ⟨_, .negative hc hq ho⟩

/-- **An integer is made the double it rounds to.** -/
theorem denotes_of_roundsTo (h : RoundsTo (n : ℚ) c) :
    Denotes (Float.Model.pack (UnpackedFloat.ofInt .binary64 n)).unpack c := by
  have hnormal : Denotes (UnpackedFloat.ofInt .binary64 n) c :=
    .normalize (by rwa [zpow_zero, mul_one]) .positive
  rw [hnormal.unpack_pack]
  exact hnormal

end Integers

/-! ### Bytes as doubles -/

theorem denotes_toFloat (b : UInt8) : Denotes b.toFloat.toModel.unpack b.toNat := by
  have hlt := b.toNat_lt
  have hrounds : RoundsTo ((b.toNat : Int) : ℚ) b.toNat := by
    rw [Int.cast_natCast]
    refine .self ?_
    rcases Nat.eq_zero_or_pos b.toNat with hzero | hpos
    · exact Or.inl (by rw [hzero, Nat.cast_zero])
    · rw [Nat.abs_cast]
      exact Or.inr (isDouble_natCast hpos (by omega))
  exact denotes_of_roundsTo hrounds

/-- What equals a number that stands for `a` stands for `a` too. -/
theorem denotes_of_beq {x y : Float} {a : ℚ} (hx : Denotes x.toModel.unpack a)
    (h : (x == y) = true) : Denotes y.toModel.unpack a := by
  obtain ⟨b, hy⟩ : ∃ b, Denotes y.toModel.unpack b := by
    obtain ⟨-, -, rfl | ⟨-, rfl⟩ | ⟨-, rfl⟩⟩ := Float.beq_iff_ne_nan_and_eq.mp h
    · exact ⟨a, hx⟩
    · exact ⟨0, .zero _⟩
    · exact ⟨0, .zero _⟩
  rwa [← (hx.beq_iff hy).mp h] at hy

theorem denotes_byte_limit : Denotes (255.0 : Float).toModel.unpack 255 := by
  have hsame : (255.0 : Float) = (255 : UInt8).toFloat := by decide +kernel
  rw [hsame]
  exact denotes_toFloat 255

/-! ### Integers of few bits -/

/-- Naturals with at most 53 bits before the zeros at their end. -/
def Short (n : Nat) : Prop :=
  ∃ k e, k < 2 ^ 53 ∧ n = k * 2 ^ e

namespace Short

theorem of_lt {n : Nat} (h : n < 2 ^ 53) : Short n :=
  ⟨n, 0, h, by simp⟩

theorem two_pow (e : Nat) : Short (2 ^ e) :=
  ⟨1, e, by norm_num, by simp⟩

/-- A double cut toward zero. -/
theorem floor {m : Nat} {q : Int} (hm : m < 2 ^ 53) : Short ⌊(m : ℚ) * 2 ^ q⌋₊ := by
  rcases le_or_gt 0 q with hq | hq
  · obtain ⟨e, rfl⟩ := Int.eq_ofNat_of_zero_le hq
    refine ⟨m, e, hm, ?_⟩
    rw [zpow_natCast]
    exact_mod_cast Nat.floor_natCast (R := ℚ) (m * 2 ^ e)
  · refine of_lt ?_
    have hunit : (2 : ℚ) ^ q ≤ 1 := zpow_le_one_of_nonpos₀ one_le_two hq.le
    have hle : (m : ℚ) * 2 ^ q ≤ m := mul_le_of_le_one_right (Nat.cast_nonneg m) hunit
    have hfloor : ⌊(m : ℚ) * 2 ^ q⌋₊ ≤ m := by
      exact_mod_cast (Nat.floor_le magnitude_nonneg).trans hle
    omega

/-- **The remainder of two integers of few bits has few bits.** -/
theorem mod {a b : Nat} (ha : Short a) (hb : Short b) : Short (a % b) := by
  obtain ⟨j, d, hj, rfl⟩ := ha
  obtain ⟨k, e, hk, rfl⟩ := hb
  -- Both are multiples of the smaller power of two, and so is the remainder.
  rcases le_total d e with hle | hle
  · obtain ⟨i, rfl⟩ := Nat.exists_eq_add_of_le hle
    have hcommon : k * 2 ^ (d + i) = k * 2 ^ i * 2 ^ d := by ring
    refine ⟨j % (k * 2 ^ i), d, (Nat.mod_le _ _).trans_lt hj, ?_⟩
    rw [hcommon, Nat.mul_mod_mul_right]
  · obtain ⟨i, rfl⟩ := Nat.exists_eq_add_of_le hle
    have hcommon : j * 2 ^ (e + i) = j * 2 ^ i * 2 ^ e := by ring
    rcases Nat.eq_zero_or_pos k with rfl | hpos
    · exact ⟨j, e + i, hj, by simp⟩
    · refine ⟨j * 2 ^ i % k, e, (Nat.mod_lt _ hpos).trans hk, ?_⟩
      rw [hcommon, Nat.mul_mod_mul_right]

theorem isDouble {n : Nat} (h : Short n) (hpos : 0 < n) (hle : n ≤ 2 ^ 63) : IsDouble n := by
  obtain ⟨k, e, hk, rfl⟩ := h
  have hk0 : 0 < k := Nat.pos_of_mul_pos_right hpos
  have hc := canonical_shift hk0 hk
  have he : e < 64 := by
    by_contra hmany
    have hlarge : 2 ^ 64 ≤ k * 2 ^ e :=
      (Nat.pow_le_pow_right two_pos (by omega)).trans (Nat.le_mul_of_pos_left _ hk0)
    omega
  have hlog : k.log2 < 53 := (Nat.log2_lt hk0.ne').mpr hk
  refine ⟨k <<< (52 - k.log2), 0 - (52 - k.log2 : Nat) + e,
    ⟨hc.pos, hc.lt, by omega, Or.inl (hc.full.resolve_right (by omega))⟩, by omega, ?_⟩
  rw [Nat.shiftLeft_eq, zpow_add₀ two_ne_zero, zero_sub, zpow_neg, zpow_natCast, zpow_natCast]
  push_cast
  field_simp

end Short

end DualStack.Binary
