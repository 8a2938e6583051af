/-
Adding one to a double, again and again.

Between `-(2 ^ 53 + 2)` and `2 ^ 53` adding one leads on: doubles there are so dense
that the sum is off by no more than one half, so it is larger by at least one half,
and it does not jump over `2 ^ 53`.  Outside they are two apart or more.  There one is
at most half of the distance, and the sum is rounded back, or once to an even mantissa
and back from then on: adding one a second time changes nothing (`add_one_settles`).

So counting up from a double comes past a limit in three ways only: at once, with the
first step, or because it stays where doubles are dense (`exists_not_lt_iff`).
And whatever it comes past, in the end it is at a double that adding one does not change
(`exists_countUp_stuck`).
-/
import DualStack.Proofs.WholeNumbers

namespace DualStack.Binary

open Float.Model Float.Model.UnpackedFloat

/-! ### Every number has an owner -/

/-- Some natural is nearest, and of two the even one. -/
theorem exists_nearest {w : ℚ} (hw : 0 ≤ w) : ∃ m : Nat, (m : ℚ) - 1 / 2 ≤ w ∧
    w ≤ (m : ℚ) + 1 / 2 ∧ (w = (m : ℚ) - 1 / 2 ∨ w = (m : ℚ) + 1 / 2 → m % 2 = 0) := by
  have hfloor := Nat.floor_le hw
  have hceil := Nat.lt_floor_add_one w
  generalize ⌊w⌋₊ = k at hfloor hceil
  rcases lt_trichotomy w (k + 1 / 2) with hlt | heq | hgt
  · refine ⟨k, by linarith, hlt.le, ?_⟩
    rintro (htie | htie) <;> linarith
  · rcases Nat.mod_two_eq_zero_or_one k with heven | hodd
    · exact ⟨k, by linarith, heq.le, fun _ => heven⟩
    · exact ⟨k + 1, by push_cast; linarith, by push_cast; linarith, fun _ => by omega⟩
  · refine ⟨k + 1, by push_cast; linarith, by push_cast; linarith, ?_⟩
    push_cast
    rintro (htie | htie) <;> linarith

/-- Every number from the smallest double with a full mantissa on is owned. -/
theorem exists_owner {v : ℚ} (hv : (2 : ℚ) ^ (-1022 : Int) ≤ v) :
    ∃ m q, Canonical m q ∧ Owns m q v := by
  have hpos : 0 < v := (two_zpow_pos _).trans_le hv
  have hfirst : (2 : ℚ) ^ Int.log 2 v ≤ v := Int.zpow_log_le_self one_lt_two hpos
  have hnext : v < (2 : ℚ) ^ (Int.log 2 v + 1) := Int.lt_zpow_succ_log_self one_lt_two v
  have hleast : -1022 < Int.log 2 v + 1 :=
    (zpow_lt_zpow_iff_right₀ one_lt_two).mp (hv.trans_lt hnext)
  -- The exponent that leaves 53 bits in front of the point.
  obtain ⟨q, hq⟩ : ∃ q, Int.log 2 v = q + 52 := ⟨Int.log 2 v - 52, by ring⟩
  rw [hq] at hfirst hnext hleast
  have hlow : 2 ^ 52 ≤ v / 2 ^ q := by
    rw [← not_lt, lt_two_zpow_iff, not_lt, add_comm]
    exact hfirst
  have hhigh : v / 2 ^ q < 2 ^ 53 := by
    rw [lt_two_zpow_iff, add_comm]
    rwa [add_assoc] at hnext
  obtain ⟨m, hdown, hup, htie⟩ := exists_nearest ((by norm_num : (0 : ℚ) ≤ 2 ^ 52).trans hlow)
  have hfull : 2 ^ 52 ≤ m := by
    have hlt : (2 : ℚ) ^ 52 < m + 1 := by linarith
    exact Nat.lt_succ_iff.mp (by exact_mod_cast hlt)
  have hle : m ≤ 2 ^ 53 := by
    have hlt : (m : ℚ) < 2 ^ 53 + 1 := by linarith
    exact Nat.lt_succ_iff.mp (by exact_mod_cast hlt)
  rcases hle.lt_or_eq with hlt | hcarry
  · refine ⟨m, q, ⟨by omega, hlt, by omega, Or.inl hfull⟩, hdown, hup, htie, ?_⟩
    intro hsmallest
    rw [hsmallest]
    push_cast
    linarith
  · -- Rounding has carried, so half the mantissa goes with the next exponent.
    have hhalf : v / 2 ^ (q + 1) = v / 2 ^ q / 2 := by
      rw [zpow_add_one₀ two_ne_zero, div_div]
    rw [hcarry] at hdown hup
    push_cast at hdown hup
    refine ⟨2 ^ 52, q + 1, ⟨by norm_num, by norm_num, by omega, Or.inl le_rfl⟩, ?_, ?_, ?_, ?_⟩
    · rw [hhalf]
      push_cast
      linarith
    · rw [hhalf]
      push_cast
      linarith
    · intro _
      norm_num
    · intro _
      rw [hhalf]
      push_cast
      linarith

/-! ### Where doubles are dense -/

section Dense

variable {m : Nat} {q : Int} {v a : ℚ}

/-- The exponent is positive from `2 ^ 53` on. -/
theorem one_le_exponent_iff (hc : Canonical m q) : 1 ≤ q ↔ 2 ^ 53 ≤ (m : ℚ) * 2 ^ q := by
  constructor
  · intro hq
    have hfull : (2 : ℚ) ^ 52 ≤ m := by exact_mod_cast hc.full.resolve_right (by omega)
    have htwo : (2 : ℚ) ^ (1 : Int) ≤ 2 ^ q := (zpow_le_zpow_iff_right₀ one_lt_two).mpr hq
    calc (2 : ℚ) ^ 53 = (2 : ℚ) ^ 52 * 2 ^ (1 : Int) := by norm_num
      _ ≤ (m : ℚ) * 2 ^ q := mul_le_mul hfull htwo (by norm_num) (by positivity)
  · intro hle
    by_contra hnot
    have hwide : (m : ℚ) < 2 ^ 53 := by exact_mod_cast hc.lt
    have hone : (2 : ℚ) ^ q ≤ 1 := zpow_le_one_of_nonpos₀ one_le_two (by omega)
    have hless : (m : ℚ) * 2 ^ q ≤ m * 1 := mul_le_mul_of_nonneg_left hone (by positivity)
    linarith

/-- The largest double below `2 ^ 53` is one less. -/
theorem add_one_le_of_lt (hc : Canonical m q) (hlt : (m : ℚ) * 2 ^ q < 2 ^ 53) :
    (m : ℚ) * 2 ^ q + 1 ≤ 2 ^ 53 := by
  have hwide : (m : ℚ) + 1 ≤ 2 ^ 53 := by exact_mod_cast Nat.succ_le_of_lt hc.lt
  have hq : ¬ 1 ≤ q := by
    rw [one_le_exponent_iff hc, not_le]
    exact hlt
  have hone : (2 : ℚ) ^ q ≤ 1 := zpow_le_one_of_nonpos₀ one_le_two (by omega)
  have hle : (m : ℚ) * 2 ^ q ≤ m * 1 := mul_le_mul_of_nonneg_left hone (by positivity)
  linarith

/-- Up to `2 ^ 53` a number is off by no more than one half from its owner. -/
theorem near_of_owns (hc : Canonical m q) (ho : Owns m q v) (hv : v ≤ 2 ^ 53) :
    |(m : ℚ) * 2 ^ q - v| ≤ 1 / 2 ∧ (m : ℚ) * 2 ^ q ≤ 2 ^ 53 ∧ q ≤ 1 := by
  have hpow := two_zpow_pos q
  have hlow := (le_div_iff₀ hpow).mp ho.low
  have hhigh := (div_le_iff₀ hpow).mp ho.high
  rw [abs_le]
  by_cases hq : q ≤ 0
  · have hone : (2 : ℚ) ^ q ≤ 1 := zpow_le_one_of_nonpos₀ one_le_two hq
    have hwide : (m : ℚ) < 2 ^ 53 := by exact_mod_cast hc.lt
    have hle : (m : ℚ) * 2 ^ q ≤ m * 1 := mul_le_mul_of_nonneg_left hone (by positivity)
    exact ⟨⟨by linarith, by linarith⟩, by linarith, by omega⟩
  · have hfull : 2 ^ 52 ≤ m := hc.full.resolve_right (by omega)
    have hfull' : (2 : ℚ) ^ 52 ≤ m := by exact_mod_cast hfull
    have hunit : q = 1 := by
      by_contra hmore
      have hfour : (2 : ℚ) ^ (2 : Int) ≤ 2 ^ q :=
        (zpow_le_zpow_iff_right₀ one_lt_two).mpr (by omega)
      have hlarge : ((2 : ℚ) ^ 52 - 1 / 2) * 2 ^ (2 : Int) ≤ (m - 1 / 2) * 2 ^ q :=
        mul_le_mul (by linarith) hfour (by norm_num) (by linarith)
      norm_num at hlarge hv
      linarith
    -- The value is at most `2 ^ 53`, so its owner can only be `2 ^ 53`, from a quarter below.
    rw [hunit, zpow_one] at hlow
    have hsmallest : m = 2 ^ 52 := by
      have hlt : (m : ℚ) < 2 ^ 52 + 1 := by linarith
      have hlt' : m < 2 ^ 52 + 1 := by exact_mod_cast hlt
      omega
    have hquarter := ho.quarter hsmallest
    rw [hunit, zpow_one, hsmallest] at hquarter
    have hvalue : (m : ℚ) * 2 ^ q = 2 ^ 53 := by
      rw [hsmallest, hunit]
      norm_num
    rw [hvalue]
    norm_num at hquarter hv ⊢
    exact ⟨⟨by linarith, by linarith⟩, hunit.le⟩

theorem exists_rounds_near (hlow : (2 : ℚ) ^ (-1022 : Int) ≤ |v|) (hhigh : |v| ≤ 2 ^ 53) :
    ∃ c, RoundsTo v c ∧ |c - v| ≤ 1 / 2 ∧ c ≤ 2 ^ 53 := by
  obtain ⟨m, q, hc, ho⟩ := exists_owner hlow
  obtain ⟨hnear, hle, hq⟩ := near_of_owns hc ho hhigh
  rcases le_total 0 v with hpos | hneg
  · rw [abs_of_nonneg hpos] at ho hnear
    exact ⟨_, .positive hc (by omega) ho, hnear, hle⟩
  · rw [abs_of_nonpos hneg] at ho hnear
    have hmagnitude := magnitude_pos hc
    refine ⟨_, .negative hc (by omega) ho, ?_, by linarith⟩
    have hsame : -((m : ℚ) * 2 ^ q) - v = -(m * 2 ^ q - -v) := by ring
    rw [hsame, abs_neg]
    exact hnear

/-- A double of magnitude above one half is a multiple of `2 ^ (-53)`. -/
theorem exists_multiple (hc : Canonical m q) (s : Sign) (hlarge : 1 / 2 < (m : ℚ) * 2 ^ q) :
    ∃ z : Int, ((s.apply m : Int) : ℚ) * 2 ^ q * 2 ^ 53 = z := by
  have hq : -53 ≤ q := by
    by_contra hsmall
    have hwide : (m : ℚ) ≤ 2 ^ 53 := by exact_mod_cast hc.lt.le
    have hpow : (2 : ℚ) ^ q ≤ 2 ^ (-54 : Int) :=
      (zpow_le_zpow_iff_right₀ one_lt_two).mpr (by omega)
    have hle : (m : ℚ) * 2 ^ q ≤ 2 ^ 53 * 2 ^ (-54 : Int) :=
      mul_le_mul hwide hpow (two_zpow_pos q).le (by norm_num)
    norm_num at hle hlarge
    linarith
  refine ⟨s.apply m * 2 ^ (q + 53).toNat, ?_⟩
  have hcast : (((q + 53).toNat : Nat) : Int) = q + (53 : Nat) := Int.toNat_of_nonneg (by omega)
  push_cast
  rw [mul_assoc, ← zpow_natCast (2 : ℚ) 53, ← zpow_add₀ two_ne_zero, ← zpow_natCast, hcast]

/-- A double other than minus one is not close to it. -/
theorem far_of_add_one {u : UnpackedFloat} (hu : Denotes u a) (hne : a + 1 ≠ 0) :
    (2 : ℚ) ^ (-1022 : Int) ≤ |a + 1| := by
  have htiny : (2 : ℚ) ^ (-1022 : Int) ≤ 2 ^ (-53 : Int) :=
    (zpow_le_zpow_iff_right₀ one_lt_two).mpr (by norm_num)
  refine htiny.trans ?_
  cases hu with
  | zero s =>
      rw [zero_add, abs_one]
      norm_num
  | @finite m q s hc hq =>
      have habs : |((s.apply m : Int) : ℚ) * 2 ^ q| = m * 2 ^ q := by
        cases s with
        | positive => rw [apply_positive, abs_of_pos (magnitude_pos hc)]
        | negative => rw [apply_negative, abs_neg, abs_of_pos (magnitude_pos hc)]
      rcases lt_or_ge (1 / 2 : ℚ) (m * 2 ^ q) with hlarge | hsmall
      · obtain ⟨z, hz⟩ := exists_multiple hc s hlarge
        generalize ((s.apply m : Int) : ℚ) * 2 ^ q = a at hne hz ⊢
        have hsum : (a + 1) * 2 ^ 53 = (z + 2 ^ 53 : Int) := by
          rw [add_mul, hz, one_mul, Int.cast_add]
          norm_num
        have hinteger : z + 2 ^ 53 ≠ 0 := by
          intro hzero
          rw [hzero, Int.cast_zero] at hsum
          exact hne ((mul_eq_zero.mp hsum).resolve_right (by norm_num))
        have hone : (1 : ℚ) ≤ |((z + 2 ^ 53 : Int) : ℚ)| := by
          exact_mod_cast Int.one_le_abs hinteger
        rw [← hsum, abs_mul, abs_of_pos (by norm_num : (0 : ℚ) < 2 ^ 53)] at hone
        norm_num at hone ⊢
        linarith
      · have hlow := neg_abs_le (((s.apply m : Int) : ℚ) * 2 ^ q)
        rw [habs] at hlow
        have hself := le_abs_self (((s.apply m : Int) : ℚ) * 2 ^ q + 1)
        norm_num at hsmall ⊢
        linarith

end Dense

/-! ### Where they are not -/

section Sparse

variable {m : Nat} {q : Int}

/-- A double so large that adding one is lost on it: one is at most a quarter of its unit, or half
of it and the mantissa is even. -/
def Settled (m : Nat) (q : Int) : Prop :=
  2 ≤ q ∨ q = 1 ∧ m % 2 = 0

/-- A number within a quarter of a double, or within half of one that is even, is owned by it. -/
theorem owns_of_near {r : ℚ} (hnear : |r| ≤ 1 / 2) (htie : |r| = 1 / 2 → m % 2 = 0)
    (hquarter : m = 2 ^ 52 → -(1 / 4) ≤ r) : Owns m q ((m + r) * 2 ^ q) := by
  have hunits : ((m : ℚ) + r) * 2 ^ q / 2 ^ q = m + r :=
    mul_div_cancel_right₀ _ (two_zpow_pos q).ne'
  obtain ⟨hlow, hhigh⟩ := abs_le.mp hnear
  refine ⟨?_, ?_, ?_, ?_⟩
  · rw [hunits]
    linarith
  · rw [hunits]
    linarith
  · rw [hunits]
    rintro (hdown | hup)
    · exact htie (by rw [abs_of_neg (by linarith)]; linarith)
    · exact htie (by rw [abs_of_pos (by linarith)]; linarith)
  · intro hsmallest
    rw [hunits]
    linarith [hquarter hsmallest]

/-- One in units of a settled double. -/
theorem Settled.unit (h : Settled m q) :
    (2 : ℚ) ^ (-q) ≤ 1 / 2 ∧ ((2 : ℚ) ^ (-q) = 1 / 2 → m % 2 = 0) ∧
      (q ≠ 1 → (2 : ℚ) ^ (-q) ≤ 1 / 4) := by
  rcases h with hq | ⟨rfl, heven⟩
  · have hle : (2 : ℚ) ^ (-q) ≤ 2 ^ (-2 : Int) :=
      (zpow_le_zpow_iff_right₀ one_lt_two).mpr (by omega)
    norm_num at hle ⊢
    exact ⟨by linarith, fun h => by linarith, fun _ => hle⟩
  · norm_num
    exact heven

theorem add_one_units : (m : ℚ) * 2 ^ q + 1 = (m + 2 ^ (-q)) * 2 ^ q := by
  rw [add_mul, ← zpow_add₀ two_ne_zero, neg_add_cancel, zpow_zero]

theorem sub_one_units : (m : ℚ) * 2 ^ q - 1 = (m + -2 ^ (-q)) * 2 ^ q := by
  rw [add_mul, neg_mul, ← zpow_add₀ two_ne_zero, neg_add_cancel, zpow_zero, sub_eq_add_neg]

/-- A settled double owns what is one above it. -/
theorem Settled.owns_add_one (h : Settled m q) : Owns m q (m * 2 ^ q + 1) := by
  obtain ⟨hhalf, htie, -⟩ := h.unit
  have hpos := two_zpow_pos (-q)
  rw [add_one_units]
  refine owns_of_near ?_ ?_ ?_
  · rwa [abs_of_pos hpos]
  · rwa [abs_of_pos hpos]
  · intro _
    linarith

/-- It owns what is one below it too, unless that is where doubles get dense. -/
theorem Settled.owns_sub_one (h : Settled m q) (hdense : q = 1 → m ≠ 2 ^ 52) :
    Owns m q (m * 2 ^ q - 1) := by
  obtain ⟨hhalf, htie, hquarter⟩ := h.unit
  have hpos := two_zpow_pos (-q)
  rw [sub_one_units]
  refine owns_of_near ?_ ?_ ?_
  · rwa [abs_neg, abs_of_pos hpos]
  · rwa [abs_neg, abs_of_pos hpos]
  · intro hsmallest
    have hq : q ≠ 1 := fun hq => hdense hq hsmallest
    linarith [hquarter hq]

theorem canonical_of_full (hfull : 2 ^ 52 ≤ m) (hlt : m < 2 ^ 53) (hq : 1 ≤ q) :
    Canonical m q :=
  ⟨by omega, hlt, by omega, Or.inl hfull⟩

/-- The double `2 ^ 53`, as its mantissa and exponent. -/
theorem canonical_highest :
    Canonical (2 ^ 52) 1 ∧ ((2 ^ 52 : Nat) : ℚ) * 2 ^ (1 : Int) = 2 ^ 53 :=
  ⟨canonical_of_full le_rfl (by norm_num) le_rfl, by norm_num⟩

/-- What is one above a large double is owned by a settled one. -/
theorem exists_settled_above (hc : Canonical m q) (hlarge : 1 ≤ q) (hq : q ≤ 971) :
    ∃ m' q', Canonical m' q' ∧ q' ≤ 971 ∧ Settled m' q' ∧ Owns m' q' (m * 2 ^ q + 1) := by
  have hfull : 2 ^ 52 ≤ m := hc.full.resolve_right (by omega)
  have hlt := hc.lt
  by_cases hsettled : Settled m q
  · exact ⟨m, q, hc, hq, hsettled, hsettled.owns_add_one⟩
  obtain ⟨rfl, hodd⟩ : q = 1 ∧ m % 2 = 1 := by
    unfold Settled at hsettled
    omega
  by_cases hcarry : m + 1 = 2 ^ 53
  · have hm : (m : ℚ) = 2 ^ 53 - 1 := by
      rw [eq_sub_iff_add_eq]
      exact_mod_cast hcarry
    have howns : Owns (2 ^ 52) 2 (((2 ^ 52 : Nat) + -(1 / 4)) * 2 ^ (2 : Int)) :=
      owns_of_near (by norm_num) (by norm_num) fun _ => le_rfl
    have hvalue : (((2 ^ 52 : Nat) : ℚ) + -(1 / 4)) * 2 ^ (2 : Int) = m * 2 ^ (1 : Int) + 1 := by
      rw [hm]
      norm_num
    rw [hvalue] at howns
    exact ⟨2 ^ 52, 2, canonical_of_full le_rfl (by norm_num) (by norm_num), by norm_num,
      Or.inl le_rfl, howns⟩
  · have howns : Owns (m + 1) 1 (((m + 1 : Nat) + -(1 / 2)) * 2 ^ (1 : Int)) :=
      owns_of_near (by norm_num) (fun _ => by omega) fun _ => by omega
    have hvalue : (((m + 1 : Nat) : ℚ) + -(1 / 2)) * 2 ^ (1 : Int) = m * 2 ^ (1 : Int) + 1 := by
      push_cast
      ring
    rw [hvalue] at howns
    exact ⟨m + 1, 1, canonical_of_full (by omega) (by omega) le_rfl, hq,
      Or.inr ⟨rfl, by omega⟩, howns⟩

/-- What is one below a large double is owned by a settled one, except next to where doubles get
dense. -/
theorem exists_settled_below (hc : Canonical m q) (hfar : 2 ^ 53 + 2 < (m : ℚ) * 2 ^ q)
    (hq : q ≤ 971) :
    ∃ m' q', Canonical m' q' ∧ q' ≤ 971 ∧ Settled m' q' ∧ (q' = 1 → m' ≠ 2 ^ 52) ∧
      Owns m' q' (m * 2 ^ q - 1) := by
  have hlarge : 1 ≤ q := (one_le_exponent_iff hc).mpr (by linarith)
  have hfull : 2 ^ 52 ≤ m := hc.full.resolve_right (by omega)
  have hlt := hc.lt
  have hdense : q = 1 → 2 ^ 52 + 1 < m := by
    rintro rfl
    rw [zpow_one] at hfar
    have hhalf : (2 : ℚ) ^ 52 + 1 < m := by linarith
    exact_mod_cast hhalf
  by_cases hsettled : Settled m q
  · refine ⟨m, q, hc, hq, hsettled, ?_, hsettled.owns_sub_one ?_⟩
    · intro hunit
      have hmore := hdense hunit
      omega
    · intro hunit
      have hmore := hdense hunit
      omega
  obtain ⟨rfl, hodd⟩ : q = 1 ∧ m % 2 = 1 := by
    unfold Settled at hsettled
    omega
  have hmore := hdense rfl
  obtain ⟨k, rfl⟩ : ∃ k, m = k + 1 := ⟨m - 1, by omega⟩
  have howns : Owns k 1 ((k + 1 / 2) * 2 ^ (1 : Int)) :=
    owns_of_near (by norm_num) (fun _ => by omega) fun _ => by norm_num
  have hvalue : ((k : ℚ) + 1 / 2) * 2 ^ (1 : Int) = (k + 1 : Nat) * 2 ^ (1 : Int) - 1 := by
    push_cast
    ring
  rw [hvalue] at howns
  exact ⟨k, 1, canonical_of_full (by omega) (by omega) le_rfl, hq, Or.inr ⟨rfl, by omega⟩,
    fun _ => by omega, howns⟩

end Sparse

/-! ### One step -/

section Step

variable {x y : Float} {a c : ℚ}

theorem denotes_add
    (h : Denotes (UnpackedFloat.add .binary64 x.toModel.unpack y.toModel.unpack) c) :
    Denotes (x + y).toModel.unpack c := by
  show Denotes (Float.Model.pack _).unpack _
  rw [h.unpack_pack]
  exact h

theorem denotes_add_one (hx : Denotes x.toModel.unpack a) (ha : a ≠ 0)
    (h : RoundsTo (a + 1) c) : Denotes (x + 1.0).toModel.unpack c :=
  denotes_add (hx.add_rounds denotes_one ha one_ne_zero h)

theorem eq_of_denotes (hx : Denotes x.toModel.unpack a) (hy : Denotes y.toModel.unpack a)
    (ha : a ≠ 0) : x = y := by
  have hsame := hx.unique hy ha
  have hmodel : x.toModel = y.toModel := by
    rw [← pack_of_unpack hsame]
    exact pack_of_unpack rfl
  exact congrArg Float.ofModel hmodel

/-- No double lies between `2 ^ 53 - 1` and `2 ^ 53`. -/
theorem add_one_le (hx : Denotes x.toModel.unpack a) (hlt : a < 2 ^ 53) : a + 1 ≤ 2 ^ 53 := by
  generalize x.toModel.unpack = u at hx
  cases hx with
  | zero s => norm_num
  | finite s hc hq =>
      cases s with
      | positive =>
          rw [apply_positive] at hlt ⊢
          exact add_one_le_of_lt hc hlt
      | negative =>
          have hneg := Denotes.negative hc
          norm_num at hneg ⊢
          linarith

/-- **Where doubles are dense, adding one leads on**, by one half at least. -/
theorem add_one_advances (hx : Denotes x.toModel.unpack a) (hlow : -(2 ^ 53 + 2) ≤ a)
    (hhigh : a < 2 ^ 53) :
    ∃ b, Denotes (x + 1.0).toModel.unpack b ∧ a + 1 / 2 ≤ b ∧ b ≤ 2 ^ 53 := by
  have hle := add_one_le hx hhigh
  by_cases hexact : a = 0 ∨ a + 1 = 0
  · have hdouble : a + 1 = 0 ∨ IsDouble |a + 1| := by
      rcases hexact with rfl | hzero
      · have hone := isDouble_natCast Nat.one_pos (by norm_num)
        rw [Nat.cast_one] at hone
        exact Or.inr (by rwa [zero_add, abs_one])
      · exact Or.inl hzero
    exact ⟨a + 1, denotes_add (hx.add denotes_one hdouble), by linarith, hle⟩
  rw [not_or] at hexact
  rcases lt_or_ge a (-(2 ^ 53 + 1)) with hfar | hnear
  · -- More than `2 ^ 53 + 1` below zero, and not more than two: halfway to `-2 ^ 53` or nearer.
    obtain ⟨hc, hhighest⟩ := canonical_highest
    have howns : Owns (2 ^ 52) 1
        (((2 ^ 52 : Nat) + (-(a + 1) / 2 - 2 ^ 52)) * 2 ^ (1 : Int)) := by
      refine owns_of_near ?_ (fun _ => by norm_num) fun _ => ?_
      · rw [abs_le]
        constructor <;> linarith
      · linarith
    have hvalue : (((2 ^ 52 : Nat) : ℚ) + (-(a + 1) / 2 - 2 ^ 52)) * 2 ^ (1 : Int) =
        -(a + 1) := by
      push_cast
      ring
    rw [hvalue] at howns
    have hrounds := RoundsTo.negative hc (by norm_num) howns
    rw [hhighest] at hrounds
    exact ⟨_, denotes_add_one hx hexact.1 hrounds, by linarith, by norm_num⟩
  · have hclose : |a + 1| ≤ 2 ^ 53 := by
      rw [abs_le]
      constructor <;> linarith
    obtain ⟨c, hrounds, hc, hmost⟩ :=
      exists_rounds_near (far_of_add_one hx hexact.2) hclose
    refine ⟨c, denotes_add_one hx hexact.1 hrounds, ?_, hmost⟩
    linarith [(abs_le.mp hc).1]

/-- **Where they are not, adding one a second time changes nothing.** -/
theorem add_one_settles (hx : Denotes x.toModel.unpack a) (hfar : 2 ^ 53 ≤ a ∨ a < -(2 ^ 53 + 2)) :
    x + 1.0 + 1.0 = x + 1.0 := by
  have ha : a ≠ 0 := by
    rintro rfl
    norm_num at hfar
  obtain ⟨b, hb, hfirst, hsecond⟩ : ∃ b, b ≠ 0 ∧ RoundsTo (a + 1) b ∧ RoundsTo (b + 1) b := by
    generalize x.toModel.unpack = u at hx
    cases hx with
    | zero s => exact absurd rfl ha
    | @finite m q s hc hq =>
        have hmagnitude := magnitude_pos hc
        cases s with
        | positive =>
            rw [apply_positive] at hfar ⊢
            have hlarge : (2 : ℚ) ^ 53 ≤ m * 2 ^ q := hfar.resolve_right (by linarith)
            obtain ⟨m', q', hc', hq', hsettled, howns⟩ :=
              exists_settled_above hc ((one_le_exponent_iff hc).mpr hlarge) hq
            exact ⟨_, (magnitude_pos hc').ne', .positive hc' hq' howns,
              .positive hc' hq' hsettled.owns_add_one⟩
        | negative =>
            rw [apply_negative] at hfar ⊢
            have hlarge : (2 : ℚ) ^ 53 + 2 < m * 2 ^ q := by
              have hbelow := hfar.resolve_left (by linarith)
              linarith
            obtain ⟨m', q', hc', hq', hsettled, hdense, howns⟩ := exists_settled_below hc hlarge hq
            have hopposite (v : ℚ) : -(-v + 1) = v - 1 := by ring
            refine ⟨_, (neg_neg_of_pos (magnitude_pos hc')).ne, .negative hc' hq' ?_,
              .negative hc' hq' ?_⟩
            · rwa [hopposite]
            · rw [hopposite]
              exact hsettled.owns_sub_one hdense
  have hnext := denotes_add_one hx ha hfirst
  exact eq_of_denotes (denotes_add_one hnext hb hsecond) hnext hb

/-- From below `2 ^ 53` no step leads past it. -/
theorem add_one_stays (hx : Denotes x.toModel.unpack a) (hlow : -(2 ^ 53 + 2) ≤ a)
    (hhigh : a ≤ 2 ^ 53) :
    ∃ b, Denotes (x + 1.0).toModel.unpack b ∧ -(2 ^ 53 + 2) ≤ b ∧ b ≤ 2 ^ 53 := by
  rcases hhigh.lt_or_eq with hlt | rfl
  · obtain ⟨b, hb, hmore, hmost⟩ := add_one_advances hx hlow hlt
    exact ⟨b, hb, by linarith, hmost⟩
  · obtain ⟨hc, hhighest⟩ := canonical_highest
    have hsettled : Settled (2 ^ 52) 1 := Or.inr ⟨rfl, by norm_num⟩
    have hrounds := RoundsTo.positive hc (by norm_num) hsettled.owns_add_one
    rw [hhighest] at hrounds
    exact ⟨2 ^ 53, denotes_add_one hx (by norm_num) hrounds, by norm_num, le_rfl⟩

end Step

/-! ### Counting up -/

section Counting

variable {start limit : Float} {a l : ℚ}

/-- A finite double stands for a number. -/
theorem exists_denotes {x : Float} (hx : x.isFinite = true) :
    ∃ a, Denotes x.toModel.unpack a := by
  have hfinite : x.toModel.unpack.isFinite = true := hx
  cases hunpack : x.toModel.unpack with
  | notANumber =>
      rw [hunpack] at hfinite
      exact absurd hfinite (by simp [UnpackedFloat.isFinite])
  | infinity s =>
      rw [hunpack] at hfinite
      exact absurd hfinite (by simp [UnpackedFloat.isFinite])
  | zero s => exact ⟨0, .zero s⟩
  | finite s m q hm =>
      obtain ⟨hc, hq⟩ := canonical_of_unpack hunpack
      exact ⟨_, .finite s hc hq⟩

/-- Counting up from `start`: the double after `n` steps. -/
def countUp (start : Float) (n : Nat) : Float :=
  (· + 1.0)^[n] start

theorem countUp_succ (start : Float) (n : Nat) : countUp start (n + 1) = countUp start n + 1.0 :=
  Function.iterate_succ_apply' _ n start

/-- Where doubles are dense, a limit is reached: each step comes closer by one half. -/
theorem countUp_reaches (hl : Denotes limit.toModel.unpack l) (hlimit : l ≤ 2 ^ 53) (steps : Nat) :
    ∀ {start : Float} {a : ℚ}, Denotes start.toModel.unpack a → -(2 ^ 53 + 2) ≤ a →
      l - a ≤ steps / 2 → ∃ n, ¬ countUp start n < limit := by
  induction steps with
  | zero =>
      intro start a hstart _ hclose
      refine ⟨0, ?_⟩
      show ¬ start < limit
      rw [hstart.lt_iff hl]
      rw [Nat.cast_zero, zero_div] at hclose
      linarith
  | succ steps ih =>
      intro start a hstart hlow hclose
      by_cases hover : l ≤ a
      · refine ⟨0, ?_⟩
        show ¬ start < limit
        rw [hstart.lt_iff hl]
        linarith
      · obtain ⟨b, hb, hmore, -⟩ := add_one_advances hstart hlow (by linarith)
        push_cast at hclose
        obtain ⟨n, hn⟩ := ih hb (by linarith) (by linarith)
        exact ⟨n + 1, hn⟩

/-- Where they are not, counting up never gets further than one step. -/
theorem countUp_settled (h : start + 1.0 + 1.0 = start + 1.0) (n : Nat) :
    countUp start (n + 1) = start + 1.0 := by
  induction n with
  | zero => rfl
  | succ n ih => rw [countUp_succ, ih, h]

/-- Counting up from below `2 ^ 53` does not get past it. -/
theorem countUp_le (hstart : Denotes start.toModel.unpack a) (hlow : -(2 ^ 53 + 2) ≤ a)
    (hhigh : a ≤ 2 ^ 53) (n : Nat) :
    ∃ b, Denotes (countUp start n).toModel.unpack b ∧ -(2 ^ 53 + 2) ≤ b ∧ b ≤ 2 ^ 53 := by
  induction n with
  | zero => exact ⟨a, hstart, hlow, hhigh⟩
  | succ n ih =>
      obtain ⟨b, hb, hlow', hhigh'⟩ := ih
      rw [countUp_succ]
      exact add_one_stays hb hlow' hhigh'

/-- **Counting up comes past a limit at once, with the first step, or by staying where doubles are
dense.** -/
theorem exists_not_lt_iff (hs : Denotes start.toModel.unpack a)
    (hl : Denotes limit.toModel.unpack l) :
    (∃ n, ¬ countUp start n < limit) ↔
      ¬ start < limit ∨ ¬ start + 1.0 < limit ∨ -(2 ^ 53 + 2) ≤ a ∧ l ≤ 2 ^ 53 := by
  constructor
  · rintro ⟨n, hn⟩
    by_contra hnot
    simp only [not_or, not_not, not_and, not_le] at hnot
    obtain ⟨hfirst, hsecond, hsparse⟩ := hnot
    cases n with
    | zero => exact hn hfirst
    | succ n =>
        by_cases hfar : 2 ^ 53 ≤ a ∨ a < -(2 ^ 53 + 2)
        · rw [countUp_settled (add_one_settles hs hfar)] at hn
          exact hn hsecond
        · simp only [not_or, not_le, not_lt] at hfar
          obtain ⟨b, hb, -, hmost⟩ := countUp_le hs hfar.2 hfar.1.le (n + 1)
          rw [hb.lt_iff hl] at hn
          have hbeyond := hsparse hfar.2
          linarith
  · rintro (hover | hover | ⟨hlow, hlimit⟩)
    · exact ⟨0, hover⟩
    · exact ⟨1, hover⟩
    · obtain ⟨steps, hsteps⟩ := exists_nat_ge ((l - a) * 2)
      exact countUp_reaches hl hlimit steps hs hlow (by linarith)

/-- `-(2 ^ 53 + 2)`, the smallest double from which counting up leads on. -/
theorem denotes_lowest : Denotes (-9007199254740994.0 : Float).toModel.unpack (-(2 ^ 53 + 2)) := by
  have hc : Canonical (2 ^ 52 + 1) 1 := canonical_of_full (by norm_num) (by norm_num) le_rfl
  have hfinite := Denotes.finite .negative hc (by norm_num)
  have hvalue : ((2 ^ 52 + 1 : Nat) : ℚ) * 2 ^ (1 : Int) = 2 ^ 53 + 2 := by norm_num
  rw [apply_negative, hvalue] at hfinite
  exact hfinite

/-- `2 ^ 53`, where counting up stops leading on. -/
theorem denotes_highest : Denotes (9007199254740992.0 : Float).toModel.unpack (2 ^ 53) := by
  obtain ⟨hc, hhighest⟩ := canonical_highest
  have hfinite := Denotes.finite .positive hc (by norm_num)
  rw [apply_positive, hhighest] at hfinite
  exact hfinite

/-- The same for the doubles themselves. -/
theorem countUp_passes_iff (hstart : start.isFinite = true) (hlimit : limit.isFinite = true) :
    (∃ n, ¬ countUp start n < limit) ↔
      ¬ start < limit ∨ ¬ start + 1.0 < limit ∨
        -9007199254740994.0 ≤ start ∧ limit ≤ 9007199254740992.0 := by
  obtain ⟨a, hs⟩ := exists_denotes hstart
  obtain ⟨l, hl⟩ := exists_denotes hlimit
  rw [exists_not_lt_iff hs hl, denotes_lowest.le_iff hs, hl.le_iff denotes_highest]

/-- **Counting up always comes to a double that adding one does not change**: with the first step,
or with the step after it has come to `2 ^ 53`. -/
theorem exists_countUp_stuck (hstart : start.isFinite = true) :
    ∃ n, countUp start n + 1.0 = countUp start n := by
  obtain ⟨a, hs⟩ := exists_denotes hstart
  by_cases hfar : 2 ^ 53 ≤ a ∨ a < -(2 ^ 53 + 2)
  · exact ⟨1, add_one_settles hs hfar⟩
  · simp only [not_or, not_le, not_lt] at hfar
    obtain ⟨steps, hsteps⟩ := exists_nat_ge ((2 ^ 53 - a) * 2)
    obtain ⟨n, hn⟩ := countUp_reaches denotes_highest le_rfl steps hs hfar.2 (by linarith)
    obtain ⟨b, hb, -, -⟩ := countUp_le hs hfar.2 hfar.1.le n
    rw [hb.lt_iff denotes_highest, not_lt] at hn
    refine ⟨n + 1, ?_⟩
    rw [countUp_succ]
    exact add_one_settles hb (Or.inl hn)

end Counting

end DualStack.Binary
