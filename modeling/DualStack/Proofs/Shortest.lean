/-
The shortest decimal of a double is one that rounds to it.

The search for the shortest decimal compares naturals: it brings the interval of a
double and a grid of decimals to one denominator.  `Interval.contains_iff` is the
translation into rationals, and it says that the search accepts only decimals the
double owns.  That the search cannot come away empty is a matter of density: a
double of magnitude `p` is at least `10 ^ (p - 1)`, and the grid of 17 digits is
finer than the doubles there, since `2 ^ 53 < 10 ^ 16`.
-/
import DualStack.Decimal.Shortest
import DualStack.Proofs.Doubles

namespace DualStack.Decimal

open Binary

/-! ### The interval of a double, in rationals -/

/-- Where the interval of `m · 2 ^ q` begins, in units of `2 ^ q`. -/
def lowEnd (m : Nat) : ℚ :=
  if m = 2 ^ 52 then m - 1 / 4 else m - 1 / 2

namespace Interval

variable {m k : Nat} {q e : Int}

/-- The denominator that an interval and a grid point are brought to. -/
def common (m : Nat) (q e : Int) : ℚ :=
  (ofBinary m q).unit * 10 ^ (-e).toNat

theorem common_pos (m : Nat) (q e : Int) : 0 < common m q e := by
  have hunit : (0 : ℚ) < (ofBinary m q).unit := by
    show (0 : ℚ) < ((2 ^ (2 - q).toNat : Nat) : ℚ)
    positivity
  unfold common
  positivity

/-- Positive and negative parts of an exponent. -/
theorem zpow_toNat {x : ℚ} (hx : x ≠ 0) (n : Int) : x ^ n.toNat = x ^ n * x ^ (-n).toNat := by
  rw [← zpow_natCast, ← zpow_natCast, ← zpow_add₀ hx]
  congr 1
  omega

theorem scale_eq (m : Nat) (q : Int) :
    (2 : ℚ) ^ (q - 2).toNat = 2 ^ q / 4 * (ofBinary m q).unit := by
  have hunit : ((ofBinary m q).unit : ℚ) = 2 ^ (-(q - 2)).toNat := by
    show ((2 ^ (2 - q).toNat : Nat) : ℚ) = _
    rw [neg_sub]
    push_cast
    rfl
  rw [zpow_toNat two_ne_zero, hunit, zpow_sub₀ two_ne_zero]
  norm_num

theorem onGrid_value (m : Nat) (q e : Int) :
    (((ofBinary m q).onGrid e).value : ℚ) = m * 2 ^ q * common m q e := by
  show ((4 * m * 2 ^ (q - 2).toNat * 10 ^ (-e).toNat : Nat) : ℚ) = _
  push_cast
  rw [scale_eq m q, common]
  ring

theorem onGrid_high (m : Nat) (q e : Int) :
    (((ofBinary m q).onGrid e).high : ℚ) = (m + 1 / 2) * 2 ^ q * common m q e := by
  show (((4 * m + 2) * 2 ^ (q - 2).toNat * 10 ^ (-e).toNat : Nat) : ℚ) = _
  push_cast
  rw [scale_eq m q, common]
  ring

theorem onGrid_low (hm : 0 < m) (q e : Int) :
    (((ofBinary m q).onGrid e).low : ℚ) = lowEnd m * 2 ^ q * common m q e := by
  show (((if m = 2 ^ 52 then 4 * m - 1 else 4 * m - 2) * 2 ^ (q - 2).toNat *
    10 ^ (-e).toNat : Nat) : ℚ) = _
  have hend : (((if m = 2 ^ 52 then 4 * m - 1 else 4 * m - 2) : Nat) : ℚ) = 4 * lowEnd m := by
    unfold lowEnd
    split
    · rw [Nat.cast_sub (by omega)]
      push_cast
      ring
    · rw [Nat.cast_sub (by omega)]
      push_cast
      ring
  rw [Nat.cast_mul, Nat.cast_mul, hend]
  push_cast
  rw [scale_eq m q, common]
  ring

theorem onGrid_unit (m : Nat) (q e : Int) :
    (((ofBinary m q).onGrid e).unit : ℚ) = 10 ^ e * common m q e := by
  show (((ofBinary m q).unit * 10 ^ e.toNat : Nat) : ℚ) = _
  push_cast
  rw [zpow_toNat (by norm_num), common]
  ring

/-- Numerators over one denominator compare as their quotients. -/
theorem compare_numerators {a b : Nat} {x y d : ℚ} (hd : 0 < d) (ha : (a : ℚ) = x * d)
    (hb : (b : ℚ) = y * d) : (a ≤ b ↔ x ≤ y) ∧ (a < b ↔ x < y) := by
  constructor
  · rw [← @Nat.cast_le ℚ, ha, hb]
    exact mul_le_mul_iff_left₀ hd
  · rw [← @Nat.cast_lt ℚ, ha, hb]
    exact mul_lt_mul_iff_left₀ hd

theorem onGrid_point (m k : Nat) (q e : Int) :
    ((k * ((ofBinary m q).onGrid e).unit : Nat) : ℚ) = k * 10 ^ e * common m q e := by
  rw [Nat.cast_mul, onGrid_unit]
  ring

/-- A grid point is accepted if it lies in the interval, ends included for an even mantissa. -/
theorem contains_iff (hm : 0 < m) :
    ((ofBinary m q).onGrid e).contains (k * ((ofBinary m q).onGrid e).unit) = true ↔
      if m % 2 = 0 then lowEnd m * 2 ^ q ≤ k * 10 ^ e ∧ (k : ℚ) * 10 ^ e ≤ (m + 1 / 2) * 2 ^ q
      else lowEnd m * 2 ^ q < k * 10 ^ e ∧ (k : ℚ) * 10 ^ e < (m + 1 / 2) * 2 ^ q := by
  have hd := common_pos m q e
  obtain ⟨hlowLe, hlowLt⟩ := compare_numerators hd (onGrid_low hm q e) (onGrid_point m k q e)
  obtain ⟨hhighLe, hhighLt⟩ := compare_numerators hd (onGrid_point m k q e) (onGrid_high m q e)
  have hclosed : ((ofBinary m q).onGrid e).closed = decide (m % 2 = 0) := rfl
  unfold contains
  rw [hclosed]
  by_cases heven : m % 2 = 0
  · simp only [heven, decide_true, if_true, Bool.and_eq_true, decide_eq_true_eq]
    rw [hlowLe, hhighLe]
  · simp only [heven, decide_false, Bool.false_eq_true, if_false, Bool.and_eq_true,
      decide_eq_true_eq]
    rw [hlowLt, hhighLt]

/-- What is accepted is owned by the double. -/
theorem owns_of_contains (hm : 0 < m)
    (h : ((ofBinary m q).onGrid e).contains (k * ((ofBinary m q).onGrid e).unit) = true) :
    Owns m q (k * 10 ^ e) := by
  have hq := two_zpow_pos q
  have hend : (m : ℚ) - 1 / 2 ≤ lowEnd m := by
    unfold lowEnd
    split <;> linarith
  rw [contains_iff hm] at h
  by_cases heven : m % 2 = 0
  · rw [if_pos heven, ← le_div_iff₀ hq, ← div_le_iff₀ hq] at h
    refine ⟨by linarith [h.1], h.2, fun _ => heven, fun hsmallest => ?_⟩
    have hlow : lowEnd m = m - 1 / 4 := if_pos hsmallest
    exact hlow ▸ h.1
  · rw [if_neg heven, ← lt_div_iff₀ hq, ← div_lt_iff₀ hq] at h
    refine ⟨by linarith [h.1], h.2.le, ?_, fun hsmallest => ?_⟩
    · rintro (htie | htie)
      · linarith [h.1]
      · linarith [h.2]
    · exact absurd (hsmallest ▸ by decide) heven

/-- What lies inside the interval is accepted. -/
theorem contains_of_inside (hm : 0 < m) (hlow : lowEnd m * 2 ^ q < k * 10 ^ e)
    (hhigh : (k : ℚ) * 10 ^ e < (m + 1 / 2) * 2 ^ q) :
    ((ofBinary m q).onGrid e).contains (k * ((ofBinary m q).onGrid e).unit) = true := by
  rw [contains_iff hm]
  split
  · exact ⟨hlow.le, hhigh.le⟩
  · exact ⟨hlow, hhigh⟩

/-! ### The search -/

theorem contains_of_pick {i : Interval} (h : i.pick e = some k) :
    (i.onGrid e).contains (k * (i.onGrid e).unit) = true := by
  unfold pick at h
  dsimp only at h
  split at h
  · rename_i hbelow habove
    split at h
    · cases h
      exact hbelow
    · cases h
      exact habove
  · rename_i hbelow _
    cases h
    exact hbelow
  · rename_i _ habove
    cases h
    exact habove
  · exact absurd h (by simp)

theorem pick_isSome {i : Interval}
    (h : (i.onGrid e).contains ((i.onGrid e).value / (i.onGrid e).unit * (i.onGrid e).unit) = true ∨
      (i.onGrid e).contains (((i.onGrid e).value / (i.onGrid e).unit + 1) * (i.onGrid e).unit) =
        true) :
    (i.pick e).isSome = true := by
  unfold pick
  dsimp only
  split
  · split <;> rfl
  · rfl
  · rfl
  · rename_i hbelow habove
    rcases h with h | h
    · exact absurd h (by rw [hbelow]; simp)
    · exact absurd h (by rw [habove]; simp)

/-- The neighbours of a double on a grid. -/
theorem neighbours (m : Nat) (q e : Int) {below : Nat}
    (hbelow : ((ofBinary m q).onGrid e).value / ((ofBinary m q).onGrid e).unit = below) :
    (below : ℚ) * 10 ^ e ≤ m * 2 ^ q ∧ (m : ℚ) * 2 ^ q < (below + 1 : Nat) * 10 ^ e := by
  have hd := common_pos m q e
  have hunit : 0 < ((ofBinary m q).onGrid e).unit := by
    have hcast : (0 : ℚ) < ((ofBinary m q).onGrid e).unit := by
      rw [onGrid_unit]
      positivity
    exact_mod_cast hcast
  have hvalue := onGrid_value m q e
  have hle := Nat.div_mul_le_self ((ofBinary m q).onGrid e).value ((ofBinary m q).onGrid e).unit
  have hlt := Nat.lt_mul_div_succ ((ofBinary m q).onGrid e).value hunit
  rw [Nat.mul_comm] at hlt
  rw [hbelow] at hle hlt
  exact ⟨(compare_numerators hd (onGrid_point m below q e) hvalue).1.mp hle,
    (compare_numerators hd hvalue (onGrid_point m (below + 1) q e)).2.mp hlt⟩

/-- One of the neighbours is accepted if the grid is fine enough. -/
theorem pick_isSome_of_fine (hm : 0 < m) (hfine : (10 : ℚ) ^ e < (m + 1 / 2 - lowEnd m) * 2 ^ q) :
    ((ofBinary m q).pick e).isSome = true := by
  have hq := two_zpow_pos q
  have hend : lowEnd m < m := by
    unfold lowEnd
    split <;> linarith
  obtain ⟨k, hk⟩ :
      ∃ k, ((ofBinary m q).onGrid e).value / ((ofBinary m q).onGrid e).unit = k := ⟨_, rfl⟩
  obtain ⟨hbelow, habove⟩ := neighbours m q e hk
  push_cast at habove
  refine pick_isSome ?_
  rw [hk]
  have hlow : lowEnd m * 2 ^ q < m * 2 ^ q := mul_lt_mul_of_pos_right hend hq
  by_cases hleft : lowEnd m * 2 ^ q < k * 10 ^ e
  · exact Or.inl (contains_of_inside hm hleft (by linarith))
  · refine Or.inr (contains_of_inside hm ?_ ?_)
    · push_cast
      linarith
    · push_cast
      linarith

end Interval

/-! ### The magnitude of a number -/

theorem zerosAfterPoint_spec {unit limit n : Nat} (h : unit ≤ n * 10 ^ limit) :
    unit ≤ n * 10 ^ (zerosAfterPoint unit limit n + 1) := by
  induction limit generalizing n with
  | zero =>
      show unit ≤ n * 10 ^ 1
      omega
  | succ limit ih =>
      unfold zerosAfterPoint
      by_cases hsmall : n * 10 < unit
      · rw [if_pos hsmall]
        have hnext := ih (n := n * 10) (by rwa [Nat.mul_assoc, ← Nat.pow_succ'])
        rwa [Nat.mul_assoc, ← Nat.pow_succ'] at hnext
      · rw [if_neg hsmall]
        omega

/-- A number has a digit at the position its magnitude names. -/
theorem pow_magnitude_le {n unit : Nat} (hunit : 0 < unit) (h : unit ≤ n * 10 ^ 400) :
    (10 : ℚ) ^ (magnitude n unit - 1) ≤ n / unit := by
  have hpos : (0 : ℚ) < unit := by exact_mod_cast hunit
  rw [le_div_iff₀ hpos]
  unfold magnitude
  by_cases hsmall : n < unit
  · rw [if_pos hsmall]
    have hzeros := zerosAfterPoint_spec h
    generalize zerosAfterPoint unit 400 n = z at *
    have hcast : (unit : ℚ) ≤ n * 10 ^ (z + 1) := by exact_mod_cast hzeros
    have hexponent : (-(z : Int) - 1) = -((z + 1 : Nat) : Int) := by
      push_cast
      ring
    rw [hexponent, zpow_neg, zpow_natCast, inv_mul_le_iff₀ (by positivity), mul_comm]
    exact hcast
  · rw [if_neg hsmall]
    have hquotient : 0 < n / unit := Nat.div_pos (by omega) hunit
    generalize hlength : (Nat.toDigits 10 (n / unit)).length = p
    have hp : 0 < p := hlength ▸ Nat.length_toDigits_pos
    obtain ⟨p, rfl⟩ : ∃ p', p = p' + 1 := ⟨p - 1, by omega⟩
    have hpower : 10 ^ p ≤ n / unit := by
      rcases Nat.eq_zero_or_pos p with rfl | hp'
      · omega
      · have hnot : ¬ (Nat.toDigits 10 (n / unit)).length ≤ p := by omega
        rw [Nat.length_toDigits_le_iff (by decide) hp'] at hnot
        omega
    have hnat : 10 ^ p * unit ≤ n := (Nat.le_div_iff_mul_le hunit).mp hpower
    have hexponent : ((p + 1 : Nat) : Int) - 1 = (p : Nat) := by
      push_cast
      ring
    rw [hexponent, zpow_natCast]
    exact_mod_cast hnat

/-! ### The shortest decimal -/

/-- The rational a decimal denotes. -/
def Scaled.value (d : Scaled) : ℚ :=
  d.coefficient * 10 ^ d.exponent

theorem Scaled.strip_value (coefficient : Nat) (exponent : Int) :
    (Scaled.strip coefficient exponent).value = coefficient * 10 ^ exponent := by
  fun_induction Scaled.strip coefficient exponent with
  | case1 coefficient exponent hzero ih =>
      have hten : (coefficient : ℚ) = (coefficient / 10 : Nat) * 10 := by
        exact_mod_cast (Nat.div_mul_cancel (Nat.dvd_of_mod_eq_zero hzero.2)).symm
      rw [ih, zpow_add_one₀ (by norm_num), hten]
      ring
  | case2 coefficient exponent hdone => rfl

/-- The grid of 17 digits lies denser than the doubles. -/
theorem fine_of_maxDigits {m : Nat} {q p : Int} (hc : Canonical m q)
    (hp : (10 : ℚ) ^ (p - 1) ≤ m * 2 ^ q) :
    (10 : ℚ) ^ (p - maxDigits) < (m + 1 / 2 - lowEnd m) * 2 ^ q := by
  have hq := two_zpow_pos q
  have hdigits : (10 : ℚ) ^ (p - maxDigits) = 10 ^ (p - 1) / 10 ^ 16 := by
    have hsplit : p - maxDigits = p - 1 - (16 : Nat) := by
      show p - (17 : Nat) = _
      omega
    rw [hsplit, zpow_sub₀ (by norm_num), zpow_natCast]
  have hspacing : (m : ℚ) / 10 ^ 16 < m + 1 / 2 - lowEnd m := by
    unfold lowEnd
    by_cases hsmallest : m = 2 ^ 52
    · rw [if_pos hsmallest, hsmallest]
      norm_num
    · rw [if_neg hsmallest]
      have hlt : (m : ℚ) < 2 ^ 53 := by exact_mod_cast hc.lt
      rw [div_lt_iff₀ (by norm_num)]
      linarith
  calc (10 : ℚ) ^ (p - maxDigits) = 10 ^ (p - 1) / 10 ^ 16 := hdigits
    _ ≤ m * 2 ^ q / 10 ^ 16 := div_le_div_of_nonneg_right hp (by norm_num)
    _ = m / 10 ^ 16 * 2 ^ q := by ring
    _ < (m + 1 / 2 - lowEnd m) * 2 ^ q := mul_lt_mul_of_pos_right hspacing hq

theorem ofBinary_value (m : Nat) (q : Int) :
    ((Interval.ofBinary m q).value : ℚ) = m * 2 ^ q * (Interval.ofBinary m q).unit := by
  show ((4 * m * 2 ^ (q - 2).toNat : Nat) : ℚ) = _
  push_cast
  rw [Interval.scale_eq m q]
  ring

/-- No double is so small that the search for its first digit gives up. -/
theorem unit_le_value {m : Nat} {q : Int} (hc : Canonical m q) :
    (Interval.ofBinary m q).unit ≤ (Interval.ofBinary m q).value * 10 ^ 400 := by
  have hm : (1 : ℚ) ≤ m := by exact_mod_cast hc.pos
  have hq : (2 : ℚ) ^ (-1074 : Int) ≤ 2 ^ q := (zpow_le_zpow_iff_right₀ one_lt_two).mpr hc.le
  have hten : (2 : ℚ) ^ (1200 : Int) ≤ 10 ^ 400 := by
    calc (2 : ℚ) ^ (1200 : Int) = (2 ^ 3) ^ 400 := by
          rw [← pow_mul]
          rfl
      _ ≤ 10 ^ 400 := pow_le_pow_left₀ (by norm_num) (by norm_num) 400
  have hproduct : (1 : ℚ) ≤ m * 2 ^ q * 10 ^ 400 := by
    calc (1 : ℚ) ≤ 2 ^ (126 : Int) := by norm_num
      _ = 2 ^ (-1074 : Int) * 2 ^ (1200 : Int) := by
          rw [← zpow_add₀ two_ne_zero]
          norm_num
      _ ≤ 2 ^ q * 10 ^ 400 := mul_le_mul hq hten (two_zpow_pos _).le (two_zpow_pos q).le
      _ ≤ m * 2 ^ q * 10 ^ 400 := by
          rw [mul_assoc]
          exact le_mul_of_one_le_left (by positivity) hm
  have hcast : ((Interval.ofBinary m q).unit : ℚ) ≤
      (Interval.ofBinary m q).value * 10 ^ 400 := by
    rw [ofBinary_value]
    calc ((Interval.ofBinary m q).unit : ℚ) = 1 * (Interval.ofBinary m q).unit := (one_mul _).symm
      _ ≤ m * 2 ^ q * 10 ^ 400 * (Interval.ofBinary m q).unit :=
          mul_le_mul_of_nonneg_right hproduct (Nat.cast_nonneg _)
      _ = m * 2 ^ q * (Interval.ofBinary m q).unit * 10 ^ 400 := mul_right_comm _ _ _
  exact_mod_cast hcast

/-- **The shortest decimal of a double is one that the double owns.** -/
theorem shortest_owned {m : Nat} {q : Int} (hc : Canonical m q) :
    Owns m q (shortest m q).value := by
  have hunit : 0 < (Interval.ofBinary m q).unit := Nat.two_pow_pos _
  have hunit' : (0 : ℚ) < (Interval.ofBinary m q).unit := by exact_mod_cast hunit
  have hmagnitude := pow_magnitude_le hunit (unit_le_value hc)
  rw [ofBinary_value, mul_div_cancel_right₀ _ hunit'.ne'] at hmagnitude
  unfold shortest
  dsimp only
  generalize magnitude (Interval.ofBinary m q).value (Interval.ofBinary m q).unit = p at *
  generalize hsearch : (List.range maxDigits).findSome? _ = hit
  cases hit with
  | none =>
      -- The grid of 17 digits is among those that were tried.
      rw [List.findSome?_eq_none_iff] at hsearch
      have hlast := hsearch 16 (by decide)
      have hfine := Interval.pick_isSome_of_fine hc.pos (fine_of_maxDigits hc hmagnitude)
      rw [Option.map_eq_none_iff] at hlast
      have hsame : p - ((16 : Nat) + 1) = p - (maxDigits : Int) := rfl
      rw [hsame] at hlast
      rw [hlast] at hfine
      exact absurd hfine (by simp)
  | some d =>
      obtain ⟨n, _, hpick⟩ := List.exists_of_findSome?_eq_some hsearch
      obtain ⟨k, hk, rfl⟩ := Option.map_eq_some_iff.mp hpick
      show Owns m q (Scaled.strip k _).value
      rw [Scaled.strip_value]
      exact Interval.owns_of_contains hc.pos (Interval.contains_of_pick hk)

end DualStack.Decimal
