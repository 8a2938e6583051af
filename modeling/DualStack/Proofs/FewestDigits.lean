/-
No decimal of fewer digits names a double than its shortest one.

The search for the shortest decimal looks at one grid for each number of digits, and on
each grid only at the two neighbours of the double.  Both are enough.  The decimals that
a double owns lie without gaps, so if any point of a grid is owned then the neighbour on
that side is (`pick_isSome_of_owns`).  And a decimal of `n` digits lies on the grid for
`n` digits unless it is below the power of ten that the double is above; but then that
power is owned too, and it has one digit.
-/
import DualStack.Proofs.Numerals

namespace DualStack.Decimal

open Binary

section Owned

variable {m k : Nat} {q e : Int} {u v w : ℚ}

/-- What a double owns has no gaps. -/
theorem owns_between (hu : Owns m q u) (hw : Owns m q w) (huv : u ≤ v) (hvw : v ≤ w) :
    Owns m q v := by
  have hq := two_zpow_pos q
  have hleft : u / 2 ^ q ≤ v / 2 ^ q := div_le_div_of_nonneg_right huv hq.le
  have hright : v / 2 ^ q ≤ w / 2 ^ q := div_le_div_of_nonneg_right hvw hq.le
  refine ⟨hu.low.trans hleft, hright.trans hw.high, ?_, fun hm => (hu.quarter hm).trans hleft⟩
  rintro (htie | htie)
  · exact hu.tie (Or.inl (le_antisymm (htie ▸ hleft) hu.low))
  · exact hw.tie (Or.inr (le_antisymm hw.high (htie ▸ hright)))

namespace Interval

/-- What a double owns is accepted. -/
theorem contains_of_owns (hm : 0 < m) (ho : Owns m q (k * 10 ^ e)) :
    ((ofBinary m q).onGrid e).contains (k * ((ofBinary m q).onGrid e).unit) = true := by
  have hq := two_zpow_pos q
  have hlow : lowEnd m ≤ (k : ℚ) * 10 ^ e / 2 ^ q := by
    unfold lowEnd
    split
    · exact ho.quarter ‹_›
    · exact ho.low
  rw [contains_iff hm]
  by_cases heven : m % 2 = 0
  · rw [if_pos heven, ← le_div_iff₀ hq, ← div_le_iff₀ hq]
    exact ⟨hlow, ho.high⟩
  · have hne : m ≠ 2 ^ 52 := by
      rintro rfl
      exact heven (by norm_num)
    have hend : lowEnd m = m - 1 / 2 := if_neg hne
    rw [if_neg heven, ← lt_div_iff₀ hq, ← div_lt_iff₀ hq]
    refine ⟨lt_of_le_of_ne hlow ?_, lt_of_le_of_ne ho.high ?_⟩
    · exact fun htie => heven (ho.tie (Or.inl (hend ▸ htie.symm)))
    · exact fun htie => heven (ho.tie (Or.inr htie))

/-- If a double owns a point of a grid then it owns the neighbour on that side. -/
theorem neighbour_of_owns {below : Nat} (hm : 0 < m)
    (hbelow : ((ofBinary m q).onGrid e).value / ((ofBinary m q).onGrid e).unit = below)
    (ho : Owns m q (k * 10 ^ e)) :
    (((ofBinary m q).onGrid e).contains (below * ((ofBinary m q).onGrid e).unit) = true ∧
        (k : ℚ) * 10 ^ e ≤ below * 10 ^ e) ∨
      (((ofBinary m q).onGrid e).contains ((below + 1) * ((ofBinary m q).onGrid e).unit) = true ∧
        ((below + 1 : Nat) : ℚ) * 10 ^ e ≤ k * 10 ^ e) := by
  have hten : (0 : ℚ) < 10 ^ e := by positivity
  obtain ⟨hle, hlt⟩ := neighbours m q e hbelow
  have hself := Owns.self m q
  rcases Nat.lt_or_ge below k with habove | hunder
  · have hpoint : ((below + 1 : Nat) : ℚ) * 10 ^ e ≤ k * 10 ^ e :=
      mul_le_mul_of_nonneg_right (by exact_mod_cast habove) hten.le
    exact Or.inr ⟨contains_of_owns hm (owns_between hself ho hlt.le hpoint), hpoint⟩
  · have hpoint : (k : ℚ) * 10 ^ e ≤ below * 10 ^ e :=
      mul_le_mul_of_nonneg_right (by exact_mod_cast hunder) hten.le
    exact Or.inl ⟨contains_of_owns hm (owns_between ho hself hpoint hle), hpoint⟩

/-- **If a double owns a point of a grid then the search finds one there.** -/
theorem pick_isSome_of_owns (hm : 0 < m) (ho : Owns m q (k * 10 ^ e)) :
    ((ofBinary m q).pick e).isSome = true :=
  pick_isSome ((neighbour_of_owns hm rfl ho).imp And.left And.left)

/-- The search finds one of the neighbours. -/
theorem eq_of_pick {i : Interval} (h : i.pick e = some k) :
    k = (i.onGrid e).value / (i.onGrid e).unit ∨ k = (i.onGrid e).value / (i.onGrid e).unit + 1 := by
  unfold pick at h
  dsimp only at h
  split at h
  · split at h <;> cases h
    · exact Or.inl rfl
    · exact Or.inr rfl
  · cases h
    exact Or.inl rfl
  · cases h
    exact Or.inr rfl
  · exact absurd h (by simp)

/-- What the search finds on the grid for `n + 1` digits has no more of them, or is the power of
ten that comes next. -/
theorem pick_le {p : Int} {n : Nat} (hp : (m : ℚ) * 2 ^ q < 10 ^ p)
    (h : (ofBinary m q).pick (p - (n + 1)) = some k) : k ≤ 10 ^ (n + 1) := by
  obtain ⟨below, hbelow⟩ : ∃ b, ((ofBinary m q).onGrid (p - (n + 1))).value /
      ((ofBinary m q).onGrid (p - (n + 1))).unit = b := ⟨_, rfl⟩
  have hstep : (0 : ℚ) < 10 ^ (p - (n + 1)) := by positivity
  have hlt : below < 10 ^ (n + 1) := by
    have hpower : (10 : ℚ) ^ p = (10 ^ (n + 1) : Nat) * 10 ^ (p - (n + 1)) := by
      push_cast
      rw [← zpow_natCast, ← zpow_add₀ (by norm_num)]
      congr 1
      push_cast
      ring
    have hless := (neighbours m q _ hbelow).1.trans_lt hp
    rw [hpower] at hless
    exact_mod_cast lt_of_mul_lt_mul_right hless hstep.le
  have hcases := eq_of_pick h
  rw [hbelow] at hcases
  omega

end Interval

end Owned

/-! ### The magnitude of a number, from above -/

theorem zerosAfterPoint_lt {unit limit n : Nat} (h : n < unit) :
    n * 10 ^ zerosAfterPoint unit limit n < unit := by
  induction limit generalizing n with
  | zero => simpa [zerosAfterPoint] using h
  | succ limit ih =>
      unfold zerosAfterPoint
      by_cases hsmall : n * 10 < unit
      · have hnext := ih hsmall
        rw [if_pos hsmall]
        rwa [Nat.mul_assoc, ← Nat.pow_succ'] at hnext
      · rwa [if_neg hsmall, Nat.pow_zero, Nat.mul_one]

/-- A number is below the power of ten of its magnitude. -/
theorem lt_pow_magnitude {n unit : Nat} (hunit : 0 < unit) :
    (n : ℚ) / unit < 10 ^ magnitude n unit := by
  have hpos : (0 : ℚ) < unit := by exact_mod_cast hunit
  rw [div_lt_iff₀ hpos]
  unfold magnitude
  by_cases hsmall : n < unit
  · have hzeros : (n : ℚ) * 10 ^ zerosAfterPoint unit 400 n < unit := by
      exact_mod_cast zerosAfterPoint_lt hsmall
    rw [if_pos hsmall, zpow_neg, zpow_natCast, lt_inv_mul_iff₀ (by positivity), mul_comm]
    exact hzeros
  · have hquotient : n / unit < 10 ^ (Nat.toDigits 10 (n / unit)).length :=
      (Nat.length_toDigits_le_iff (by decide) Nat.length_toDigits_pos).mp le_rfl
    have hnat := (Nat.div_lt_iff_lt_mul hunit).mp hquotient
    rw [if_neg hsmall, zpow_natCast]
    exact_mod_cast hnat

/-! ### The first grid with a hit -/

/-- Taking zeros off the end makes no coefficient larger, and one that ends in a zero smaller. -/
theorem Scaled.strip_le (c : Nat) (e : Int) :
    (strip c e).coefficient ≤ c ∧
      (c ≠ 0 → c % 10 = 0 → (strip c e).coefficient ≤ c / 10) := by
  fun_induction strip c e with
  | case1 c e hzero ih => exact ⟨by omega, fun _ _ => ih.1⟩
  | case2 c e hdone => exact ⟨le_rfl, fun hne hten => absurd ⟨hne, hten⟩ hdone⟩

theorem length_digitsOf_le {n k : Nat} (hk : 0 < k) : (digitsOf n).length ≤ k ↔ n < 10 ^ k :=
  Nat.length_toDigits_le_iff (by decide) hk

theorem length_strip_le {c n : Nat} (h : c ≤ 10 ^ (n + 1)) (e : Int) :
    (digitsOf (Scaled.strip c e).coefficient).length ≤ n + 1 := by
  obtain ⟨hle, hten⟩ := Scaled.strip_le c e
  rw [length_digitsOf_le n.succ_pos]
  rcases h.lt_or_eq with hlt | rfl
  · omega
  · have hnext : 10 ^ (n + 1) / 10 = 10 ^ n := by rw [Nat.pow_succ, Nat.mul_div_cancel _ (by decide)]
    have hpow := hten (Nat.pow_pos (by decide)).ne' (by rw [Nat.pow_succ, Nat.mul_mod_left])
    rw [hnext] at hpow
    exact hpow.trans_lt (Nat.pow_lt_pow_right (by decide) n.lt_succ_self)

/-- A search through the first numbers stops at a hit or before it. -/
theorem findSome?_range_of_hit {α : Type} {f : Nat → Option α} {limit n : Nat} (hn : n < limit)
    (h : (f n).isSome = true) :
    ∃ k ≤ n, ∃ a, f k = some a ∧ (List.range limit).findSome? f = some a := by
  have hsplit : List.range limit =
      List.range (n + 1) ++ (List.range (limit - (n + 1))).map (n + 1 + ·) := by
    rw [← List.range_add]
    congr 1
    omega
  have hsome : ((List.range (n + 1)).findSome? f).isSome = true :=
    List.findSome?_isSome_iff.mpr ⟨n, List.mem_range.mpr n.lt_succ_self, h⟩
  obtain ⟨a, ha⟩ := Option.isSome_iff_exists.mp hsome
  obtain ⟨k, hk, hfound⟩ := List.exists_of_findSome?_eq_some ha
  refine ⟨k, Nat.le_of_lt_succ (List.mem_range.mp hk), a, hfound, ?_⟩
  rw [hsplit, List.findSome?_append, ha, Option.some_or]

section Fewest

variable {m c : Nat} {q e : Int}

/-- A double and the power of ten of its magnitude. -/
theorem magnitude_bounds (hc : Canonical m q) : ∃ p : Int,
    magnitude (Interval.ofBinary m q).value (Interval.ofBinary m q).unit = p ∧
      (10 : ℚ) ^ (p - 1) ≤ m * 2 ^ q ∧ (m : ℚ) * 2 ^ q < 10 ^ p := by
  have hunit : 0 < (Interval.ofBinary m q).unit := Nat.two_pow_pos _
  have hunit' : (0 : ℚ) < (Interval.ofBinary m q).unit := by exact_mod_cast hunit
  have hlow := pow_magnitude_le hunit (unit_le_value hc)
  have hhigh := lt_pow_magnitude (n := (Interval.ofBinary m q).value) hunit
  rw [ofBinary_value, mul_div_cancel_right₀ _ hunit'.ne'] at hlow hhigh
  exact ⟨_, rfl, hlow, hhigh⟩

/-- A decimal of `n + 1` digits that is not below a power of ten lies on the grid for `n + 1`
digits behind that power. -/
theorem exists_grid_point {p : Int} {n : Nat} (hlength : (digitsOf c).length = n + 1)
    (h : (10 : ℚ) ^ (p - 1) ≤ c * 10 ^ e) :
    ∃ k : Nat, (c : ℚ) * 10 ^ e = k * 10 ^ (p - (n + 1)) := by
  have hdigits : (c : ℚ) < 10 ^ (n + 1) := by
    exact_mod_cast (length_digitsOf_le n.succ_pos).mp hlength.le
  have hpower : (10 : ℚ) ^ (p - 1) < 10 ^ ((n + 1 : Nat) + e) := by
    rw [zpow_add₀ (by norm_num), zpow_natCast]
    exact h.trans_lt (mul_lt_mul_of_pos_right hdigits (by positivity))
  have hexponent := (zpow_lt_zpow_iff_right₀ (by norm_num)).mp hpower
  push_cast at hexponent
  obtain ⟨j, hj⟩ := Int.eq_ofNat_of_zero_le (a := e - (p - (n + 1))) (by omega)
  refine ⟨c * 10 ^ j, ?_⟩
  push_cast
  rw [mul_assoc, ← zpow_natCast, ← zpow_add₀ (by norm_num)]
  congr 2
  omega

/-- On one of the grids for at most as many digits as an owned decimal has, the search finds
something. -/
theorem exists_hit {p : Int} (hc : Canonical m q) (hp : (10 : ℚ) ^ (p - 1) ≤ m * 2 ^ q)
    (ho : Owns m q (c * 10 ^ e)) :
    ∃ n : Nat, n < maxDigits ∧ n + 1 ≤ (digitsOf c).length ∧
      ((Interval.ofBinary m q).pick (p - (n + 1))).isSome = true := by
  obtain ⟨n, hlength⟩ : ∃ n, (digitsOf c).length = n + 1 :=
    Nat.exists_eq_succ_of_ne_zero Nat.length_toDigits_pos.ne'
  rcases lt_or_ge ((c : ℚ) * 10 ^ e) (10 ^ (p - 1)) with hbelow | habove
  · -- The power of ten lies between the decimal and the double.
    have hpower : Owns m q ((1 : Nat) * 10 ^ (p - ((0 : Nat) + 1))) := by
      rw [Nat.cast_one, one_mul, Nat.cast_zero, zero_add]
      exact owns_between ho (Owns.self m q) hbelow.le hp
    exact ⟨0, by decide, by omega, Interval.pick_isSome_of_owns hc.pos hpower⟩
  · rcases Nat.lt_or_ge n maxDigits with hfew | hmany
    · obtain ⟨k, hpoint⟩ := exists_grid_point hlength habove
      exact ⟨n, hfew, hlength.ge, Interval.pick_isSome_of_owns hc.pos (hpoint ▸ ho)⟩
    · have hlast : 16 + 1 ≤ (digitsOf c).length := by
        rw [hlength]
        exact Nat.le_succ_of_le hmany
      exact ⟨16, by decide, hlast,
        Interval.pick_isSome_of_fine hc.pos (fine_of_maxDigits hc hp)⟩

/-- The shortest decimal is what the search finds on the first grid with a hit, and an owned decimal
has at least as many digits as that grid is for. -/
theorem exists_pick (hc : Canonical m q) (ho : Owns m q (c * 10 ^ e)) :
    ∃ (p : Int) (n k : Nat), (10 : ℚ) ^ (p - 1) ≤ m * 2 ^ q ∧ (m : ℚ) * 2 ^ q < 10 ^ p ∧
      n + 1 ≤ (digitsOf c).length ∧ (Interval.ofBinary m q).pick (p - (n + 1)) = some k ∧
      shortest m q = Scaled.strip k (p - (n + 1)) := by
  obtain ⟨p, hmagnitude, hlow, hhigh⟩ := magnitude_bounds hc
  obtain ⟨last, hlast, hlength, hhit⟩ := exists_hit hc hlow ho
  obtain ⟨n, hn, d, hfound, hsearch⟩ := findSome?_range_of_hit
    (f := fun n : Nat => ((Interval.ofBinary m q).pick (p - (n + 1))).map
      fun k => Scaled.strip k (p - (n + 1))) hlast (by simpa using hhit)
  have hshortest : shortest m q = d := by
    unfold shortest
    dsimp only
    rw [hmagnitude, hsearch]
    rfl
  obtain ⟨k, hpick, rfl⟩ := Option.map_eq_some_iff.mp hfound
  exact ⟨p, n, k, hlow, hhigh, by omega, hpick, hshortest⟩

/-- **No decimal that a double owns has fewer digits than the shortest one.** -/
theorem shortest_fewest (hc : Canonical m q) (ho : Owns m q (c * 10 ^ e)) :
    (digitsOf (shortest m q).coefficient).length ≤ (digitsOf c).length := by
  obtain ⟨p, n, k, -, hhigh, hlength, hpick, hshortest⟩ := exists_pick hc ho
  rw [hshortest]
  exact (length_strip_le (Interval.pick_le hhigh hpick) _).trans hlength

end Fewest

end DualStack.Decimal
