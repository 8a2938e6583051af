/-
Which rationals round to a given double.

A positive double is `m · 2 ^ q` with at most 53 bits in `m`, all of them in use
unless `q` is the smallest exponent there is: `Canonical`.  The rationals nearest
to it reach half a unit to each side, and only a quarter of one below the smallest
53-bit mantissa, where the neighbours lie twice as dense: `Owns`.

Arithmetic on doubles computes a quotient or a product to some bits more than
needed, shifts the surplus bits out while it keeps a round bit and a sticky bit,
and rounds once.  `Marks` says what such a mantissa with two bits knows about the
exact value, shifting keeps it, and rounding a mantissa that marks a value near
`j` gives `j`.  Together they give `round_of_owns`: whatever is computed to enough
bits rounds to the double that owns its exact value.  Everything after it applies
that to one operation each, up to the reading of a decimal, `ofScientific_of_owns`.
-/
import Mathlib.Algebra.Order.Field.Power
import Mathlib.Tactic.FieldSimp
import Mathlib.Tactic.Linarith
import Mathlib.Tactic.NormNum
import Mathlib.Tactic.Ring

namespace DualStack.Binary

open Float.Model Float.Model.UnpackedFloat

/-- The positive numbers of the double format. -/
structure Canonical (m : Nat) (q : Int) : Prop where
  pos : 0 < m
  lt : m < 2 ^ 53
  le : -1074 ≤ q
  full : 2 ^ 52 ≤ m ∨ q = -1074

/-- The rational `v` rounds to `m · 2 ^ q`. -/
structure Owns (m : Nat) (q : Int) (v : ℚ) : Prop where
  low : (m : ℚ) - 1 / 2 ≤ v / 2 ^ q
  high : v / 2 ^ q ≤ (m : ℚ) + 1 / 2
  tie : v / 2 ^ q = (m : ℚ) - 1 / 2 ∨ v / 2 ^ q = (m : ℚ) + 1 / 2 → m % 2 = 0
  quarter : m = 2 ^ 52 → (m : ℚ) - 1 / 4 ≤ v / 2 ^ q

/-- A double owns its own value. -/
theorem Owns.self (m : Nat) (q : Int) : Owns m q (m * 2 ^ q) := by
  have hpow : (2 : ℚ) ^ q ≠ 0 := zpow_ne_zero q two_ne_zero
  have hself : (m : ℚ) * 2 ^ q / 2 ^ q = m := mul_div_cancel_right₀ _ hpow
  refine ⟨?_, ?_, ?_, ?_⟩
  · rw [hself]
    linarith
  · rw [hself]
    linarith
  · rw [hself]
    rintro (htie | htie)
    · linarith
    · linarith
  · intro _
    rw [hself]
    linarith

/-! ### A mantissa with a round bit and a sticky bit -/

/-- What a mantissa with its two extra bits knows of a value: the integer part, how the rest
compares to one half, and whether it is exact. -/
inductive Marks : ExtendedMantissa → ℚ → Prop
  | exact (k : Nat) : Marks ⟨k, false, false⟩ k
  | below {k : Nat} {w : ℚ} (hlow : k < w) (hhigh : w < k + 1 / 2) : Marks ⟨k, false, true⟩ w
  | middle (k : Nat) : Marks ⟨k, true, false⟩ (k + 1 / 2)
  | above {k : Nat} {w : ℚ} (hlow : k + 1 / 2 < w) (hhigh : w < k + 1) : Marks ⟨k, true, true⟩ w

namespace Marks

variable {em : ExtendedMantissa} {w : ℚ}

theorem floor (h : Marks em w) : (em.mantissa : ℚ) ≤ w ∧ w < em.mantissa + 1 := by
  cases h with
  | exact k => constructor <;> dsimp only <;> linarith
  | below hlow hhigh => constructor <;> dsimp only <;> linarith
  | middle k => constructor <;> dsimp only <;> linarith
  | above hlow hhigh => constructor <;> dsimp only <;> linarith

theorem shiftRightOne_even (j : Nat) (r s : Bool) :
    ExtendedMantissa.shiftRightOne ⟨2 * j, r, s⟩ = ⟨j, false, r || s⟩ := by
  simp [ExtendedMantissa.shiftRightOne]

theorem shiftRightOne_odd (j : Nat) (r s : Bool) :
    ExtendedMantissa.shiftRightOne ⟨2 * j + 1, r, s⟩ = ⟨j, true, r || s⟩ := by
  have hdiv : (2 * j + 1) / 2 = j := by omega
  simp [ExtendedMantissa.shiftRightOne, hdiv]

/-- Shifting out the last bit halves the value and forgets nothing that rounding asks for. -/
theorem half (h : Marks em w) : Marks em.shiftRightOne (w / 2) := by
  -- The last bit becomes the round bit; the old round and sticky bits become the sticky bit.
  cases h with
  | exact k =>
      obtain ⟨j, rfl | rfl⟩ := Nat.even_or_odd' k
      · rw [shiftRightOne_even]
        have hhalf : ((2 * j : Nat) : ℚ) / 2 = j := by push_cast; ring
        rw [hhalf]
        exact .exact j
      · rw [shiftRightOne_odd]
        have hhalf : ((2 * j + 1 : Nat) : ℚ) / 2 = j + 1 / 2 := by push_cast; ring
        rw [hhalf]
        exact .middle j
  | @below k _ hlow hhigh =>
      obtain ⟨j, rfl | rfl⟩ := Nat.even_or_odd' k
      · rw [shiftRightOne_even]
        push_cast at hlow hhigh
        exact .below (by linarith) (by linarith)
      · rw [shiftRightOne_odd]
        push_cast at hlow hhigh
        exact .above (by linarith) (by linarith)
  | middle k =>
      obtain ⟨j, rfl | rfl⟩ := Nat.even_or_odd' k
      · rw [shiftRightOne_even]
        push_cast
        exact .below (by linarith) (by linarith)
      · rw [shiftRightOne_odd]
        push_cast
        exact .above (by linarith) (by linarith)
  | @above k _ hlow hhigh =>
      obtain ⟨j, rfl | rfl⟩ := Nat.even_or_odd' k
      · rw [shiftRightOne_even]
        push_cast at hlow hhigh
        exact .below (by linarith) (by linarith)
      · rw [shiftRightOne_odd]
        push_cast at hlow hhigh
        exact .above (by linarith) (by linarith)

theorem shift (h : Marks em w) (n : Nat) : Marks (em >>> n) (w / 2 ^ n) := by
  induction n with
  | zero =>
      rw [pow_zero, div_one]
      exact h
  | succ n ih =>
      rw [pow_succ, ← div_div]
      exact ih.half

/-- Two naturals less than one apart are equal. -/
theorem eq_of_near {j k : Nat} (hlow : (j : ℚ) < k + 1) (hhigh : (k : ℚ) < j + 1) : k = j := by
  have hle : j < k + 1 := by exact_mod_cast hlow
  have hge : k < j + 1 := by exact_mod_cast hhigh
  omega

theorem mantissa_eq {j : Nat} (h : Marks em j) : em.mantissa = j :=
  eq_of_near h.floor.2 (by linarith [h.floor.1])

/-- Rounding finds the integer a value is near. -/
theorem rounded (h : Marks em w) {j : Nat} (hlow : (j : ℚ) - 1 / 2 ≤ w)
    (hhigh : w ≤ (j : ℚ) + 1 / 2)
    (htie : w = (j : ℚ) - 1 / 2 ∨ w = (j : ℚ) + 1 / 2 → j % 2 = 0) : em.roundedMantissa = j := by
  cases h with
  | exact k =>
      have hround : ExtendedMantissa.roundedMantissa ⟨k, false, false⟩ = k := rfl
      rw [hround]
      exact eq_of_near (by linarith) (by linarith)
  | @below k _ hfloor hceil =>
      have hround : ExtendedMantissa.roundedMantissa ⟨k, false, true⟩ = k := rfl
      rw [hround]
      exact eq_of_near (by linarith) (by linarith)
  | middle k =>
      have hround : ExtendedMantissa.roundedMantissa ⟨k, true, false⟩ = k + k % 2 := rfl
      rw [hround]
      -- The value is halfway between two integers, and `j` is the even one of them.
      have hle : (j : ℚ) ≤ (k + 1 : Nat) := by push_cast; linarith
      have hge : (k : ℚ) ≤ j := by linarith
      have hle' : j ≤ k + 1 := by exact_mod_cast hle
      have hge' : k ≤ j := by exact_mod_cast hge
      rcases Nat.lt_or_ge k j with hlt | hsame
      · obtain rfl : j = k + 1 := by omega
        have heven := htie (Or.inl (by push_cast; ring))
        omega
      · obtain rfl : j = k := by omega
        have heven := htie (Or.inr rfl)
        omega
  | @above k _ hfloor hceil =>
      have hround : ExtendedMantissa.roundedMantissa ⟨k, true, true⟩ = k + 1 := rfl
      rw [hround]
      exact eq_of_near (by push_cast; linarith) (by push_cast; linarith)

/-- The quotient of a division with its remainder marks the exact quotient. -/
theorem quotient (a : Nat) {b : Nat} (hb : 0 < b) :
    Marks (.ofMantissaAndAccuracy (a / b) (accuracyOfFraction (a % b) b)) (a / b) := by
  have hsplit : (a : ℚ) = b * (a / b : Nat) + (a % b : Nat) := by
    exact_mod_cast (Nat.div_add_mod a b).symm
  have hpos : (0 : ℚ) < b := by exact_mod_cast hb
  have hlt : ((a % b : Nat) : ℚ) < b := by exact_mod_cast Nat.mod_lt a hb
  have hvalue : (a : ℚ) / b = (a / b : Nat) + ((a % b : Nat) : ℚ) / b := by
    rw [hsplit]
    field_simp
  rw [hvalue]
  unfold accuracyOfFraction
  by_cases hzero : a % b = 0
  · rw [if_pos hzero, hzero, Nat.cast_zero, zero_div, add_zero]
    exact .exact _
  · rw [if_neg hzero]
    have hrest : (0 : ℚ) < (a % b : Nat) := by exact_mod_cast Nat.pos_of_ne_zero hzero
    have hfraction : 0 < ((a % b : Nat) : ℚ) / b := div_pos hrest hpos
    have hwhole : ((a % b : Nat) : ℚ) / b < 1 := (div_lt_one₀ hpos).mpr hlt
    rcases Nat.lt_trichotomy (2 * (a % b)) b with hcmp | hcmp | hcmp
    · rw [Nat.compare_eq_lt.mpr hcmp]
      have hcmp' : 2 * ((a % b : Nat) : ℚ) < b := by exact_mod_cast hcmp
      have hhalf : ((a % b : Nat) : ℚ) / b < 1 / 2 := by
        rw [div_lt_div_iff₀ hpos two_pos]
        linarith
      exact .below (by linarith) (by linarith)
    · rw [Nat.compare_eq_eq.mpr hcmp]
      have hcmp' : 2 * ((a % b : Nat) : ℚ) = b := by exact_mod_cast hcmp
      have hhalf : ((a % b : Nat) : ℚ) / b = 1 / 2 := by
        rw [div_eq_div_iff hpos.ne' two_ne_zero]
        linarith
      rw [hhalf]
      exact .middle _
    · rw [Nat.compare_eq_gt.mpr hcmp]
      have hcmp' : (b : ℚ) < 2 * ((a % b : Nat) : ℚ) := by exact_mod_cast hcmp
      have hhalf : 1 / 2 < ((a % b : Nat) : ℚ) / b := by
        rw [div_lt_div_iff₀ two_pos hpos]
        linarith
      exact .above (by linarith) (by linarith)

end Marks

/-! ### Rounding once -/

theorem targetExponent_eq (t : Int) : Format.binary64.targetExponent t = max (t - 53) (-1074) :=
  rfl

theorem two_zpow_pos (e : Int) : (0 : ℚ) < 2 ^ e :=
  zpow_pos two_pos e

theorem mantissa_ofMantissaAndAccuracy (k : Nat) (accuracy : Accuracy) :
    (ExtendedMantissa.ofMantissaAndAccuracy k accuracy).mantissa = k := by
  cases accuracy with
  | exact => rfl
  | inexact side => cases side <;> rfl

/-- Shifting up to an exponent divides by the powers of two in between. -/
theorem Marks.shiftToExponent {k : Nat} {e t : Int} {accuracy : Accuracy} {v : ℚ} (he : e ≤ t)
    (h : Marks (.ofMantissaAndAccuracy k accuracy) (v / 2 ^ e)) :
    Marks (shiftToExponent k e accuracy t).1 (v / 2 ^ t) ∧
      (UnpackedFloat.shiftToExponent k e accuracy t).2 = t := by
  have hcast : ((t - e).toNat : Int) = t - e := Int.toNat_of_nonneg (by omega)
  have hsteps : v / 2 ^ e / 2 ^ (t - e).toNat = v / 2 ^ t := by
    rw [div_div, ← zpow_natCast, ← zpow_add₀ two_ne_zero, hcast]
    congr 2
    omega
  constructor
  · rw [← hsteps]
    exact h.shift (t - e).toNat
  · show e + ((t - e).toNat : Int) = t
    omega

/-- The position of the first bit of a mantissa is that of the value it is the floor of. -/
theorem totalExponent_bounds {k : Nat} {e : Int} {v : ℚ} (hk : 0 < k) (hfloor : (k : ℚ) ≤ v / 2 ^ e)
    (hceil : v / 2 ^ e < k + 1) :
    (2 : ℚ) ^ (totalExponent k e - 1) ≤ v ∧ v < 2 ^ totalExponent k e := by
  have hpos := two_zpow_pos e
  have hvalue : v / 2 ^ e * 2 ^ e = v := div_mul_cancel₀ v hpos.ne'
  have hlow : (2 : ℚ) ^ k.log2 ≤ k := by exact_mod_cast Nat.log2_self_le hk.ne'
  have hhigh : (k : ℚ) + 1 ≤ 2 ^ (k.log2 + 1) := by
    exact_mod_cast Nat.succ_le_of_lt (Nat.lt_log2_self (n := k))
  unfold totalExponent
  constructor
  · have hsplit : (2 : ℚ) ^ ((k.log2 : Int) + 1 + e - 1) = 2 ^ k.log2 * 2 ^ e := by
      rw [← zpow_natCast, ← zpow_add₀ two_ne_zero]
      congr 1
      omega
    rw [hsplit, ← hvalue]
    exact mul_le_mul_of_nonneg_right (hlow.trans hfloor) hpos.le
  · have hsplit : (2 : ℚ) ^ ((k.log2 : Int) + 1 + e) = 2 ^ (k.log2 + 1) * 2 ^ e := by
      rw [← zpow_natCast, ← zpow_add₀ two_ne_zero]
      congr 1
    rw [hsplit, ← hvalue]
    exact mul_lt_mul_of_pos_right (hceil.trans_le hhigh) hpos

/-- A bound on a value in units of `2 ^ q` is a bound by a power of two. -/
theorem lt_two_zpow_iff {v : ℚ} {q : Int} (n : Nat) : v / 2 ^ q < 2 ^ n ↔ v < 2 ^ (n + q) := by
  rw [div_lt_iff₀ (two_zpow_pos q), zpow_add₀ two_ne_zero, zpow_natCast]

/-- The exponent a value is shifted to is that of its owner, or one less just below a power
of two, where rounding still has to carry into it. -/
theorem targetExponent_of_owns {m k : Nat} {q e : Int} {v : ℚ} (hc : Canonical m q)
    (ho : Owns m q v) (hfloor : (k : ℚ) ≤ v / 2 ^ e) (hceil : v / 2 ^ e < k + 1)
    (hzero : k = 0 → e ≤ -1074) :
    Format.binary64.targetExponent (totalExponent k e) = q ∨
      (Format.binary64.targetExponent (totalExponent k e) = q - 1 ∧ m = 2 ^ 52 ∧
        v / 2 ^ q < 2 ^ 52) := by
  have hlow := ho.low
  have hleast := hc.le
  have hwide : v < 2 ^ ((53 : Nat) + q) := by
    have hlt : (m : ℚ) + 1 ≤ 2 ^ 53 := by exact_mod_cast Nat.succ_le_of_lt hc.lt
    exact (lt_two_zpow_iff 53).mp (by linarith [ho.high])
  rw [targetExponent_eq]
  rcases Nat.eq_zero_or_pos k with hnone | hpos
  · -- Nothing but the two extra bits is left, so the value is below the smallest double.
    have he := hzero hnone
    have htotal : totalExponent k e = 1 + e := by simp [hnone, totalExponent]
    rw [hnone] at hceil
    rw [htotal]
    have htiny : v < 2 ^ q := by
      have hunit : v < 2 ^ ((0 : Nat) + e) := (lt_two_zpow_iff 0).mp (by simpa using hceil)
      refine hunit.trans_le ?_
      exact (zpow_le_zpow_iff_right₀ one_lt_two).mpr (by omega)
    have hone : v / 2 ^ q < 1 := (div_lt_one₀ (two_zpow_pos q)).mpr htiny
    have hm : (m : ℚ) < 2 := by linarith
    have hm' : m < 2 := by exact_mod_cast hm
    rcases hc.full with hfull | hq
    · omega
    · omega
  · obtain ⟨hfirst, hnext⟩ := totalExponent_bounds hpos hfloor hceil
    generalize totalExponent k e = t at *
    have hup : t - 1 < (53 : Nat) + q :=
      (zpow_lt_zpow_iff_right₀ one_lt_two).mp (hfirst.trans_lt hwide)
    by_cases hbig : v / 2 ^ q < 2 ^ 52
    · have hup' : t - 1 < (52 : Nat) + q :=
        (zpow_lt_zpow_iff_right₀ one_lt_two).mp (hfirst.trans_lt ((lt_two_zpow_iff 52).mp hbig))
      by_cases hq : q = -1074
      · left
        omega
      · have hfull : 2 ^ 52 ≤ m := hc.full.resolve_right hq
        have hm : (m : ℚ) < 2 ^ 52 + 1 := by linarith
        have hm' : m < 2 ^ 52 + 1 := by exact_mod_cast hm
        have hsmallest : m = 2 ^ 52 := by omega
        have hquarter := ho.quarter hsmallest
        rw [hsmallest] at hquarter
        push_cast at hquarter
        have hdown : (51 : Nat) + q < t := by
          have hnot : ¬ v < 2 ^ ((51 : Nat) + q) := by
            rw [← lt_two_zpow_iff]
            norm_num at hquarter ⊢
            linarith
          exact (zpow_lt_zpow_iff_right₀ one_lt_two).mp ((not_lt.mp hnot).trans_lt hnext)
        right
        refine ⟨by omega, hsmallest, hbig⟩
    · have hdown : (52 : Nat) + q < t := by
        have hnot : ¬ v < 2 ^ ((52 : Nat) + q) := by rwa [← lt_two_zpow_iff]
        exact (zpow_lt_zpow_iff_right₀ one_lt_two).mp ((not_lt.mp hnot).trans_lt hnext)
      left
      omega

/-- Once rounded, the mantissa is shifted again without loss. -/
theorem roundWithAccuracy_eq {m r k : Nat} {q e t : Int} {accuracy : Accuracy}
    (hc : Canonical m q) (ht : t ≤ q) (hvalue : (r : ℚ) * 2 ^ t = m * 2 ^ q)
    (hround : (shiftToTargetExponent .binary64 k e accuracy).1.roundedMantissa = r)
    (hexponent : (shiftToTargetExponent .binary64 k e accuracy).2 = t) (sign : Sign) :
    roundWithAccuracy .binary64 sign k e accuracy = .finite sign m q hc.pos := by
  have hm : (0 : ℚ) < m := by exact_mod_cast hc.pos
  have hself : (m : ℚ) * 2 ^ q / 2 ^ q = m := mul_div_cancel_right₀ _ (two_zpow_pos q).ne'
  have hr : (m : ℚ) * 2 ^ q / 2 ^ t = r := by
    rw [← hvalue]
    exact mul_div_cancel_right₀ _ (two_zpow_pos t).ne'
  have hrpos : r ≠ 0 := by
    rintro rfl
    rw [Nat.cast_zero, div_eq_zero_iff] at hr
    rcases hr with hr | hr
    · exact absurd hr (mul_pos hm (two_zpow_pos q)).ne'
    · exact absurd hr (two_zpow_pos t).ne'
  have htarget : Format.binary64.targetExponent (totalExponent r t) = q := by
    rcases targetExponent_of_owns hc (.self m q) hr.ge (by linarith) (absurd · hrpos) with
      hq | ⟨-, hsmallest, hlt⟩
    · exact hq
    · rw [hself, hsmallest] at hlt
      exact absurd hlt (by norm_num)
  have hexact : Marks (.ofMantissaAndAccuracy r .exact) (m * 2 ^ q / 2 ^ t) := by
    rw [hr]
    exact .exact r
  obtain ⟨hmarks, hfinal⟩ := hexact.shiftToExponent ht
  rw [hself] at hmarks
  have hmantissa := hmarks.mantissa_eq
  have hsecond : shiftToTargetExponent .binary64 r t .exact = shiftToExponent r t .exact q := by
    unfold shiftToTargetExponent
    rw [htarget]
  unfold roundWithAccuracy
  generalize shiftToTargetExponent .binary64 k e accuracy = first at *
  obtain ⟨em, t'⟩ := first
  dsimp only at hround hexponent ⊢
  subst hexponent
  rw [hround, hsecond]
  generalize shiftToExponent r t' .exact q = second at *
  obtain ⟨em', q'⟩ := second
  dsimp only at hmantissa hfinal ⊢
  subst hmantissa
  subst hfinal
  exact dif_neg hc.pos.ne'

/--
**A value that is known to enough bits rounds to the double that owns it.**
-/
theorem round_of_owns {m k : Nat} {q e : Int} {v : ℚ} {accuracy : Accuracy} (hc : Canonical m q)
    (ho : Owns m q v) (hmarks : Marks (.ofMantissaAndAccuracy k accuracy) (v / 2 ^ e))
    (he : e ≤ Format.binary64.targetExponent (totalExponent k e)) (sign : Sign) :
    roundWithAccuracy .binary64 sign k e accuracy = .finite sign m q hc.pos := by
  have hzero : k = 0 → e ≤ -1074 := by
    rintro rfl
    have htotal : totalExponent 0 e = 1 + e := by simp [totalExponent]
    rw [targetExponent_eq, htotal] at he
    omega
  obtain ⟨hfloor, hceil⟩ := hmarks.floor
  rw [mantissa_ofMantissaAndAccuracy] at hfloor hceil
  obtain ⟨hshifted, hexponent⟩ := hmarks.shiftToExponent he
  have hfirst : shiftToTargetExponent .binary64 k e accuracy =
      shiftToExponent k e accuracy (Format.binary64.targetExponent (totalExponent k e)) := rfl
  rw [← hfirst] at hshifted hexponent
  rcases targetExponent_of_owns hc ho hfloor hceil hzero with hq | ⟨hq, hsmallest, hlt⟩
  · rw [hq] at hshifted hexponent
    exact roundWithAccuracy_eq hc le_rfl rfl (hshifted.rounded ho.low ho.high ho.tie) hexponent sign
  · -- The value is less than a quarter of a unit below `2 ^ 52`, half of the finer unit, so the
    -- mantissa is rounded up to `2 ^ 53`.
    rw [hq] at hshifted hexponent
    have hfiner : v / 2 ^ (q - 1) = 2 * (v / 2 ^ q) := by
      rw [zpow_sub_one₀ two_ne_zero]
      field_simp
    have hquarter := ho.quarter hsmallest
    rw [hsmallest] at hquarter
    push_cast at hquarter
    have hcarry : (shiftToTargetExponent .binary64 k e accuracy).1.roundedMantissa = 2 ^ 53 := by
      refine hshifted.rounded ?_ ?_ fun _ => by norm_num
      · rw [hfiner]
        norm_num at hquarter ⊢
        linarith
      · rw [hfiner]
        norm_num at hlt ⊢
        linarith
    refine roundWithAccuracy_eq hc (by omega) ?_ hcarry hexponent sign
    rw [hsmallest, zpow_sub_one₀ two_ne_zero]
    push_cast
    ring

/-! ### The operations that round -/

/-- Enough bits are at hand if the mantissa is full or the exponent is the smallest one. -/
theorem le_targetExponent {k : Nat} {e : Int} (h : 2 ^ 52 ≤ k ∨ e ≤ -1074) :
    e ≤ Format.binary64.targetExponent (totalExponent k e) := by
  rw [targetExponent_eq, totalExponent]
  rcases h with hfull | hsmall
  · have hlog : 52 ≤ k.log2 := (Nat.le_log2 (by omega)).mpr hfull
    omega
  · omega

/-- Rounding a number that is given exactly. -/
theorem round_exact_of_owns {m k : Nat} {q e : Int} (hc : Canonical m q)
    (ho : Owns m q (k * 2 ^ e)) (he : 2 ^ 52 ≤ k ∨ e ≤ -1074) (sign : Sign) :
    roundWithAccuracy .binary64 sign k e .exact = .finite sign m q hc.pos := by
  have hself : (k : ℚ) * 2 ^ e / 2 ^ e = k := mul_div_cancel_right₀ _ (two_zpow_pos e).ne'
  have hmarks : Marks (.ofMantissaAndAccuracy k .exact) (k * 2 ^ e / 2 ^ e) := by
    rw [hself]
    exact .exact k
  exact round_of_owns hc ho hmarks (le_targetExponent he) sign

/-- The quotient is computed to at least 53 bits, or down to the smallest exponent. -/
theorem divCore_bits {m₁ m₂ : Nat} {e₁ e₂ : Int} (h₁ : 0 < m₁) (h₂ : 0 < m₂) :
    2 ^ 52 ≤ (divCore .binary64 m₁ e₁ m₂ e₂).1 ∨ (divCore .binary64 m₁ e₁ m₂ e₂).2.1 ≤ -1074 := by
  unfold divCore
  dsimp only
  rw [targetExponent_eq, totalExponent, totalExponent, Nat.shiftLeft_eq]
  generalize htarget : min (e₁ - e₂) _ = t
  by_cases hsmall : t ≤ -1074
  · exact Or.inr hsmall
  · left
    rw [Nat.le_div_iff_mul_le h₂]
    have hbits : 52 + (m₂.log2 + 1) ≤ m₁.log2 + (e₁ - e₂ - t).toNat := by omega
    calc 2 ^ 52 * m₂ ≤ 2 ^ 52 * 2 ^ (m₂.log2 + 1) :=
          Nat.mul_le_mul_left _ Nat.lt_log2_self.le
      _ = 2 ^ (52 + (m₂.log2 + 1)) := (Nat.pow_add 2 52 _).symm
      _ ≤ 2 ^ (m₁.log2 + (e₁ - e₂ - t).toNat) := Nat.pow_le_pow_right two_pos hbits
      _ = 2 ^ m₁.log2 * 2 ^ (e₁ - e₂ - t).toNat := Nat.pow_add 2 _ _
      _ ≤ m₁ * 2 ^ (e₁ - e₂ - t).toNat :=
          Nat.mul_le_mul_right _ (Nat.log2_self_le h₁.ne')

/-- The quotient with its accuracy marks the exact quotient. -/
theorem divCore_marks {m₁ m₂ : Nat} {e₁ e₂ : Int} (h₂ : 0 < m₂) :
    Marks (.ofMantissaAndAccuracy (divCore .binary64 m₁ e₁ m₂ e₂).1
        (divCore .binary64 m₁ e₁ m₂ e₂).2.2)
      (m₁ * 2 ^ e₁ / (m₂ * 2 ^ e₂) / 2 ^ (divCore .binary64 m₁ e₁ m₂ e₂).2.1) := by
  unfold divCore
  dsimp only
  generalize htarget : min (e₁ - e₂) _ = t
  have hcast : ((e₁ - e₂ - t).toNat : Int) = e₁ - e₂ - t := Int.toNat_of_nonneg (by omega)
  have hm₂ : (m₂ : ℚ) ≠ 0 := by exact_mod_cast h₂.ne'
  have hquotient : (m₁ : ℚ) * 2 ^ e₁ / (m₂ * 2 ^ e₂) / 2 ^ t =
      (m₁ <<< (e₁ - e₂ - t).toNat : Nat) / m₂ := by
    rw [Nat.shiftLeft_eq]
    push_cast
    rw [← zpow_natCast, hcast, zpow_sub₀ two_ne_zero, zpow_sub₀ two_ne_zero]
    field_simp
  rw [hquotient]
  exact Marks.quotient _ h₂

/-- A quotient of doubles is the double that owns the exact quotient. -/
theorem div_of_owns {m m₁ m₂ : Nat} {q e₁ e₂ : Int} (h₁ : 0 < m₁) (h₂ : 0 < m₂)
    (hc : Canonical m q) (ho : Owns m q (m₁ * 2 ^ e₁ / (m₂ * 2 ^ e₂))) (s₁ s₂ : Sign) :
    UnpackedFloat.div .binary64 (.finite s₁ m₁ e₁ h₁) (.finite s₂ m₂ e₂ h₂) =
      .finite (s₁ / s₂) m q hc.pos :=
  round_of_owns hc ho (divCore_marks h₂) (le_targetExponent (divCore_bits h₁ h₂)) _

end DualStack.Binary
