/-
Of all decimals with so few digits, the shortest one of a double is the nearest.

Several decimals of the fewest digits may name one double.  The search settles for
whichever neighbour of the double on its grid is nearer, and of two that are equally
near for the upper one; `Preferred` is that order.  On the grid nothing is preferred to
the neighbours, which lie between the double and everything else.  A decimal with as few
digits that is not on the grid is below the power of ten the double is above; that
power lies between the two, and it is on the grid.

`ShortestDigits` says all this of digits and an exponent, without the search: they name
the double, there are no fewer that do, and none as few are preferred.  That leaves one
choice (`ShortestDigits.unique`).
-/
import DualStack.Proofs.FewestDigits

namespace DualStack.Decimal

open Binary

/-- How decimals are chosen for `x`: `u` is nearer than `v`, or as near and not below it. -/
def Preferred (x u v : ℚ) : Prop :=
  |u - x| < |v - x| ∨ (|u - x| = |v - x| ∧ v ≤ u)

namespace Preferred

variable {x u v w : ℚ}

theorem of_below (hvu : v ≤ u) (hux : u ≤ x) : Preferred x u v := by
  rcases hvu.eq_or_lt with rfl | hlt
  · exact Or.inr ⟨rfl, le_rfl⟩
  · refine Or.inl ?_
    rw [abs_of_nonpos (by linarith), abs_of_nonpos (by linarith)]
    linarith

theorem of_above (hxu : x ≤ u) (huv : u ≤ v) : Preferred x u v := by
  rcases huv.eq_or_lt with rfl | hlt
  · exact Or.inr ⟨rfl, le_rfl⟩
  · refine Or.inl ?_
    rw [abs_of_nonneg (by linarith), abs_of_nonneg (by linarith)]
    linarith

theorem trans (huv : Preferred x u v) (hvw : Preferred x v w) : Preferred x u w := by
  rcases huv with hlt | ⟨heq, hle⟩
  · rcases hvw with hlt' | ⟨heq', -⟩
    · exact Or.inl (hlt.trans hlt')
    · exact Or.inl (heq' ▸ hlt)
  · rcases hvw with hlt' | ⟨heq', hle'⟩
    · exact Or.inl (heq ▸ hlt')
    · exact Or.inr ⟨heq.trans heq', hle'.trans hle⟩

/-- Two decimals are never preferred to each other. -/
theorem antisymm (huv : Preferred x u v) (hvu : Preferred x v u) : u = v := by
  rcases huv with hlt | ⟨heq, hle⟩
  · rcases hvu with hlt' | ⟨heq', -⟩
    · exact absurd hlt' hlt.asymm
    · exact absurd heq' hlt.ne'
  · rcases hvu with hlt' | ⟨-, hle'⟩
    · exact absurd heq hlt'.ne'
    · exact le_antisymm hle' hle

end Preferred

namespace Interval

variable {m j k below : Nat} {q e : Int}

/-- The search tells by the remainder which neighbour is nearer. -/
theorem remainder_lt_iff
    (hbelow : ((ofBinary m q).onGrid e).value / ((ofBinary m q).onGrid e).unit = below) :
    2 * (((ofBinary m q).onGrid e).value - below * ((ofBinary m q).onGrid e).unit) <
        ((ofBinary m q).onGrid e).unit ↔
      (m : ℚ) * 2 ^ q - below * 10 ^ e < (below + 1 : Nat) * 10 ^ e - m * 2 ^ q := by
  have hd := common_pos m q e
  have hvalue := onGrid_value m q e
  have hsum : ((below * ((ofBinary m q).onGrid e).unit +
      (below + 1) * ((ofBinary m q).onGrid e).unit : Nat) : ℚ) =
      (below * 10 ^ e + (below + 1 : Nat) * 10 ^ e) * common m q e := by
    rw [Nat.cast_add, onGrid_point, onGrid_point]
    ring
  have hdouble : ((2 * ((ofBinary m q).onGrid e).value : Nat) : ℚ) =
      2 * (m * 2 ^ q) * common m q e := by
    rw [Nat.cast_mul, hvalue]
    push_cast
    ring
  have hle : below * ((ofBinary m q).onGrid e).unit ≤ ((ofBinary m q).onGrid e).value :=
    hbelow ▸ Nat.div_mul_le_self _ _
  have hcompare := (compare_numerators hd hdouble hsum).2
  rw [Nat.add_one_mul below] at hcompare
  constructor
  · intro h
    have hlt := hcompare.mp (by omega)
    linarith
  · intro h
    have hlt := hcompare.mpr (by linarith)
    omega

/-- Of the two neighbours the remainder tells the preferred one. -/
theorem neighbour_preferred
    (hbelow : ((ofBinary m q).onGrid e).value / ((ofBinary m q).onGrid e).unit = below) :
    if 2 * (((ofBinary m q).onGrid e).value - below * ((ofBinary m q).onGrid e).unit) <
        ((ofBinary m q).onGrid e).unit then
      Preferred (m * 2 ^ q) (below * 10 ^ e) ((below + 1 : Nat) * 10 ^ e)
    else Preferred (m * 2 ^ q) ((below + 1 : Nat) * 10 ^ e) (below * 10 ^ e) := by
  obtain ⟨hle, hlt⟩ := neighbours m q e hbelow
  have hlower : |(below : ℚ) * 10 ^ e - m * 2 ^ q| = m * 2 ^ q - below * 10 ^ e := by
    rw [abs_of_nonpos (by linarith), neg_sub]
  have hupper : |((below + 1 : Nat) : ℚ) * 10 ^ e - m * 2 ^ q| =
      (below + 1 : Nat) * 10 ^ e - m * 2 ^ q := abs_of_nonneg (by linarith)
  unfold Preferred
  rw [hlower, hupper]
  split
  · rename_i hclose
    exact Or.inl ((remainder_lt_iff hbelow).mp hclose)
  · rename_i hfar
    rw [remainder_lt_iff hbelow, not_lt] at hfar
    rcases hfar.lt_or_eq with hless | htie
    · exact Or.inl hless
    · exact Or.inr ⟨htie, by linarith⟩

/-- **Nothing on the grid that a double owns is preferred to what the search finds.** -/
theorem pick_preferred (hm : 0 < m) (h : (ofBinary m q).pick e = some k)
    (ho : Owns m q (j * 10 ^ e)) : Preferred (m * 2 ^ q) (k * 10 ^ e) (j * 10 ^ e) := by
  obtain ⟨below, hbelow⟩ :
      ∃ n, ((ofBinary m q).onGrid e).value / ((ofBinary m q).onGrid e).unit = n := ⟨_, rfl⟩
  obtain ⟨hle, hlt⟩ := neighbours m q e hbelow
  have hchoice := neighbour_preferred hbelow
  -- The neighbour on the side of `j` is owned, and preferred to `j`.
  have hside := (neighbour_of_owns hm hbelow ho).imp
    (And.imp_right fun hpoint => Preferred.of_below hpoint hle)
    (And.imp_right fun hpoint => Preferred.of_above hlt.le hpoint)
  unfold pick at h
  dsimp only at h
  rw [hbelow] at h
  split at h
  · split at h
    · rename_i hclose
      cases h
      rw [if_pos hclose] at hchoice
      rcases hside with ⟨-, hbest⟩ | ⟨-, hbest⟩
      · exact hbest
      · exact hchoice.trans hbest
    · rename_i hfar
      cases h
      rw [if_neg hfar] at hchoice
      rcases hside with ⟨-, hbest⟩ | ⟨-, hbest⟩
      · exact hchoice.trans hbest
      · exact hbest
  · rename_i _ hnone
    cases h
    rcases hside with ⟨-, hbest⟩ | ⟨hsome, -⟩
    · exact hbest
    · exact absurd hsome (by rw [hnone]; decide)
  · rename_i hnone _
    cases h
    rcases hside with ⟨hsome, -⟩ | ⟨-, hbest⟩
    · exact absurd hsome (by rw [hnone]; decide)
    · exact hbest
  · exact absurd h (by simp)

end Interval

section Nearest

variable {m c : Nat} {q e : Int}

/-- **Nothing with as few digits that a double owns is preferred to its shortest decimal.** -/
theorem shortest_preferred (hc : Canonical m q) (ho : Owns m q (c * 10 ^ e))
    (hlength : (digitsOf c).length ≤ (digitsOf (shortest m q).coefficient).length) :
    Preferred (m * 2 ^ q) (shortest m q).value (c * 10 ^ e) := by
  obtain ⟨p, n, k, hlow, hhigh, hfew, hpick, hshortest⟩ := exists_pick hc ho
  have hmany := length_strip_le (Interval.pick_le hhigh hpick) (p - (n + 1))
  rw [hshortest] at hlength
  rw [hshortest, Scaled.strip_value]
  have hexact : (digitsOf c).length = n + 1 := by omega
  rcases lt_or_ge ((c : ℚ) * 10 ^ e) (10 ^ (p - 1)) with hbelow | habove
  · -- The power of ten lies between the decimal and the double.
    have hpower : (10 : ℚ) ^ (p - 1) = (10 ^ n : Nat) * 10 ^ (p - (n + 1)) := by
      push_cast
      rw [← zpow_natCast, ← zpow_add₀ (by norm_num)]
      congr 1
      ring
    have hbetween := owns_between ho (Owns.self m q) hbelow.le hlow
    rw [hpower] at hbelow hbetween hlow
    exact (Interval.pick_preferred hc.pos hpick hbetween).trans (.of_below hbelow.le hlow)
  · obtain ⟨j, hj⟩ := exists_grid_point hexact habove
    rw [hj] at ho ⊢
    exact Interval.pick_preferred hc.pos hpick ho

end Nearest

/-! ### Shortest digits -/

/-- Digits and the exponent of the first of them that name a double, which no fewer digits do, and
as many only if they are farther from it, or as far and below. -/
structure ShortestDigits (m : Nat) (q : Int) (first : Char) (rest : List Char) (e : Int) :
    Prop where
  digits : ∀ c ∈ first :: rest, isDigit c = true
  first_ne : first ≠ '0'
  names : Owns m q (natOf (first :: rest) / 10 ^ rest.length * 10 ^ e)
  fewest : ∀ (c : Nat) (f : Int), Owns m q (c * 10 ^ f) →
    (first :: rest).length ≤ (digitsOf c).length
  nearest : ∀ (c : Nat) (f : Int), Owns m q (c * 10 ^ f) →
    (digitsOf c).length ≤ (first :: rest).length →
    Preferred (m * 2 ^ q) (natOf (first :: rest) / 10 ^ rest.length * 10 ^ e) (c * 10 ^ f)

namespace ShortestDigits

variable {m : Nat} {q e e' : Int} {first first' : Char} {rest rest' : List Char}

theorem digitsOf_eq (h : ShortestDigits m q first rest e) :
    digitsOf (natOf (first :: rest)) = first :: rest :=
  digitsOf_natOf h.digits (by simp) (by simpa using h.first_ne)

/-- The exponent is that of the first digit. -/
theorem bounds (h : ShortestDigits m q first rest e) :
    (10 : ℚ) ^ e ≤ natOf (first :: rest) / 10 ^ rest.length * 10 ^ e ∧
      (natOf (first :: rest) / 10 ^ rest.length * 10 ^ e : ℚ) < 10 ^ (e + 1) := by
  have hdigits := h.digitsOf_eq
  have hlength : (digitsOf (natOf (first :: rest))).length = rest.length + 1 := by
    rw [hdigits, List.length_cons]
  have hlow : 10 ^ rest.length ≤ natOf (first :: rest) := by
    by_contra hless
    rcases Nat.eq_zero_or_pos rest.length with hzero | hpos
    · rw [hzero, pow_zero, Nat.not_le, Nat.lt_one_iff] at hless
      rw [hless] at hdigits
      exact h.first_ne (List.cons.inj hdigits).1.symm
    · have hshort := (length_digitsOf_le hpos).mpr (Nat.not_le.mp hless)
      omega
  have hhigh := (length_digitsOf_le rest.length.succ_pos).mp hlength.le
  have hlowq : (10 : ℚ) ^ rest.length ≤ natOf (first :: rest) := by exact_mod_cast hlow
  have hhighq : (natOf (first :: rest) : ℚ) < 10 ^ (rest.length + 1) := by exact_mod_cast hhigh
  have hten : (0 : ℚ) < 10 ^ e := by positivity
  constructor
  · exact le_mul_of_one_le_left hten.le ((one_le_div (by positivity)).mpr hlowq)
  · rw [zpow_add_one₀ (by norm_num), mul_comm (10 ^ e : ℚ)]
    refine mul_lt_mul_of_pos_right ?_ hten
    rwa [div_lt_iff₀ (by positivity), mul_comm, ← pow_succ]

/-- The digits as a natural and a power of ten. -/
theorem value_eq (first : Char) (rest : List Char) (e : Int) :
    (natOf (first :: rest) / 10 ^ rest.length * 10 ^ e : ℚ) =
      natOf (first :: rest) * 10 ^ (e - rest.length) := by
  rw [zpow_sub₀ (by norm_num), zpow_natCast]
  ring

/-- No choice has more digits than another. -/
theorem length_le (h : ShortestDigits m q first rest e) (h' : ShortestDigits m q first' rest' e') :
    (first :: rest).length ≤ (first' :: rest').length := by
  have hfew := h.fewest _ _ (value_eq first' rest' e' ▸ h'.names)
  rwa [h'.digitsOf_eq] at hfew

theorem preferred (h : ShortestDigits m q first rest e) (h' : ShortestDigits m q first' rest' e') :
    Preferred (m * 2 ^ q) (natOf (first :: rest) / 10 ^ rest.length * 10 ^ e)
      (natOf (first' :: rest') / 10 ^ rest'.length * 10 ^ e') := by
  have hlength := h'.length_le h
  rw [← h'.digitsOf_eq] at hlength
  rw [value_eq first' rest' e']
  exact h.nearest _ _ (value_eq first' rest' e' ▸ h'.names) hlength

theorem exponent_le (h : ShortestDigits m q first rest e) (h' : ShortestDigits m q first' rest' e')
    (hvalue : (natOf (first :: rest) / 10 ^ rest.length * 10 ^ e : ℚ) =
      natOf (first' :: rest') / 10 ^ rest'.length * 10 ^ e') : e ≤ e' := by
  have hpower := h.bounds.1.trans_lt (hvalue ▸ h'.bounds.2)
  exact Int.lt_add_one_iff.mp ((zpow_lt_zpow_iff_right₀ (by norm_num)).mp hpower)

/-- **There is one choice of shortest digits.** -/
theorem unique (h : ShortestDigits m q first rest e) (h' : ShortestDigits m q first' rest' e') :
    first' = first ∧ rest' = rest ∧ e' = e := by
  have hvalue := (h.preferred h').antisymm (h'.preferred h)
  have hlength : rest.length = rest'.length :=
    Nat.succ_injective (le_antisymm (h.length_le h') (h'.length_le h))
  obtain rfl := le_antisymm (h.exponent_le h' hvalue) (h'.exponent_le h hvalue.symm)
  rw [hlength, mul_left_inj' (by positivity), div_left_inj' (by positivity), Nat.cast_inj] at hvalue
  have hdigits := h'.digitsOf_eq
  rw [← hvalue, h.digitsOf_eq] at hdigits
  obtain ⟨hfirst, hrest⟩ := List.cons.inj hdigits
  exact ⟨hfirst.symm, hrest.symm, rfl⟩

end ShortestDigits

end DualStack.Decimal
