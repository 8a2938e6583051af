/-
Doubles as bit patterns, and the double a decimal denotes.

Arithmetic unpacks its operands into a sign, a mantissa and an exponent and packs
the result again.  Packing what was unpacked gives the pattern back; for the other
direction `Encodes` says which numbers have a pattern, and which it is.

With the rounding of quotients this gives the reading of a decimal: `n / 10 ^ e`
is read as the double that owns it, whichever way the reader takes: a division of
two exact doubles if both are small, an exact product if there is nothing to
divide by, and a division of naturals otherwise.
-/
import Mathlib
import DualStack.Proofs.Rounding

namespace DualStack.Binary

open Float.Model Float.Model.UnpackedFloat

/-! ### Patterns -/

/-- The pattern of the double `± m · 2 ^ q`. -/
inductive Encodes (s : Sign) : Nat → Int → BitVec 64 → Prop
  | normal {e : BitVec 11} (f : BitVec 52) (hzero : e ≠ 0#11) (hones : e ≠ -1#11) :
      Encodes s (1#1 ++ f).toNat (e.toNat - 1075) (packComponents .binary64 s e f)
  | subnormal {f : BitVec 52} (hf : f ≠ 0#52) :
      Encodes s f.toNat (-1074) (packComponents .binary64 s 0#11 f)

theorem toNat_implicit (f : BitVec 52) : (1#1 ++ f).toNat = 2 ^ 52 + f.toNat := by
  rw [BitVec.toNat_append, ← Nat.shiftLeft_add_eq_or_of_lt f.isLt]
  rfl

namespace Encodes

variable {s : Sign} {m : Nat} {q : Int} {b : BitVec 64}

theorem canonical (h : Encodes s m q b) : Canonical m q ∧ q ≤ 971 := by
  cases h with
  | @normal e f hzero hones =>
      have hf := f.isLt
      have he : e.toNat < 2 ^ 11 := e.isLt
      have hpos : e.toNat ≠ 0 := fun h => hzero (BitVec.eq_of_toNat_eq h)
      have hmax : e.toNat ≠ 2047 := fun h => hones (BitVec.eq_of_toNat_eq h)
      rw [toNat_implicit]
      refine ⟨⟨by omega, by omega, by omega, Or.inl (by omega)⟩, by omega⟩
  | @subnormal f hf =>
      have hlt := f.isLt
      have hpos : f.toNat ≠ 0 := fun h => hf (BitVec.eq_of_toNat_eq h)
      refine ⟨⟨by omega, by omega, by omega, Or.inr rfl⟩, by omega⟩

theorem unpack (h : Encodes s m q b) (hm : 0 < m) :
    UnpackedFloat.unpack .binary64 b = .finite s m q hm := by
  unfold UnpackedFloat.unpack
  cases h with
  | @normal e f hzero hones =>
      simp only [unpackMantissa_packComponents, unpackExponent_packComponents,
        unpackSign_packComponents, Sign.ofBitVec_toBitVec, hzero, hones, if_false]
      rfl
  | @subnormal f hf =>
      have hones : (0#11 : BitVec 11) ≠ -1#11 := by decide
      simp only [unpackMantissa_packComponents, unpackExponent_packComponents,
        unpackSign_packComponents, Sign.ofBitVec_toBitVec, hf, hones, if_false, if_true,
        dite_false]
      rfl

theorem pack (h : Encodes s m q b) (hm : 0 < m) :
    UnpackedFloat.pack .binary64 (.finite s m q hm) = b := by
  have hexponent : @unpackExponent .binary64 b ≠ -1#11 := by
    cases h with
    | normal f hzero hones =>
        rw [unpackExponent_packComponents]
        exact hones
    | subnormal hf =>
        rw [unpackExponent_packComponents]
        decide
  have hnumber : ¬ @isNaNBits .binary64 b = true := by
    intro hnan
    exact hexponent (of_decide_eq_true hnan).1
  rw [← h.unpack hm, @pack_unpack .binary64 b (by decide), if_neg hnumber]

theorem of_unpack {hm : 0 < m} (h : UnpackedFloat.unpack .binary64 b = .finite s m q hm) :
    Encodes s m q b := by
  have hfields := @packComponents_unpackSign_unpackExponent_unpackMantissa .binary64 b
  unfold UnpackedFloat.unpack at h
  dsimp only at h
  generalize Sign.ofBitVec (@unpackSign .binary64 b) = s' at h hfields
  generalize @unpackExponent .binary64 b = e at h hfields
  by_cases hones : e = -1#11
  · rw [if_pos hones] at h
    split at h <;> exact absurd h (by simp)
  · rw [if_neg hones] at h
    by_cases hzero : e = 0#11
    · rw [if_pos hzero] at h
      split at h
      · exact absurd h (by simp)
      · rename_i hf
        simp only [UnpackedFloat.finite.injEq] at h
        obtain ⟨rfl, rfl, rfl⟩ := h
        have hsubnormal := @Encodes.subnormal s' _ hf
        rw [hzero] at hfields ⊢
        rw [hfields] at hsubnormal
        exact hsubnormal
    · rw [if_neg hzero] at h
      simp only [UnpackedFloat.finite.injEq] at h
      obtain ⟨rfl, rfl, rfl⟩ := h
      have hnormal := @Encodes.normal s' e (@unpackMantissa .binary64 b) hzero hones
      rw [hfields] at hnormal
      exact hnormal

theorem of_canonical (hc : Canonical m q) (hq : q ≤ 971) : ∃ b, Encodes s m q b := by
  have hlt := hc.lt
  have hle := hc.le
  have hpos := hc.pos
  by_cases hfull : 2 ^ 52 ≤ m
  · have hf : (BitVec.ofNat 52 (m - 2 ^ 52)).toNat = m - 2 ^ 52 := by
      rw [BitVec.toNat_ofNat]
      omega
    have he : (BitVec.ofNat 11 (q + 1075).toNat).toNat = (q + 1075).toNat := by
      rw [BitVec.toNat_ofNat]
      omega
    have hzero : BitVec.ofNat 11 (q + 1075).toNat ≠ 0#11 := by
      intro h
      rw [h] at he
      simp at he
      omega
    have hones : BitVec.ofNat 11 (q + 1075).toNat ≠ -1#11 := by
      intro h
      rw [h] at he
      simp at he
      omega
    have hnormal := Encodes.normal (s := s) (BitVec.ofNat 52 (m - 2 ^ 52)) hzero hones
    rw [toNat_implicit, hf, he] at hnormal
    have hm : 2 ^ 52 + (m - 2 ^ 52) = m := by omega
    have hq' : ((q + 1075).toNat : Int) - 1075 = q := by omega
    rw [hm, hq'] at hnormal
    exact ⟨_, hnormal⟩
  · obtain rfl : q = -1074 := hc.full.resolve_left hfull
    have hf : (BitVec.ofNat 52 m).toNat = m := by
      rw [BitVec.toNat_ofNat]
      omega
    have hzero : BitVec.ofNat 52 m ≠ 0#52 := by
      intro h
      rw [h] at hf
      simp at hf
      omega
    have hsubnormal := Encodes.subnormal (s := s) hzero
    rw [hf] at hsubnormal
    exact ⟨_, hsubnormal⟩

end Encodes

/-- A double is what its unpacked form packs to. -/
theorem pack_of_unpack {x : Float.Model} {u : UnpackedFloat} (h : x.unpack = u) :
    Float.Model.pack u = x := by
  obtain ⟨bits, hvalid⟩ := x
  have hbits : UnpackedFloat.pack .binary64 u = bits.toBitVec :=
    h ▸ pack_unpack_of_valid hvalid
  unfold Float.Model.pack
  simp only [hbits, UInt64.ofBitVec_toBitVec]

theorem canonical_of_unpack {x : Float.Model} {s : Sign} {m : Nat} {q : Int} {hm : 0 < m}
    (h : x.unpack = .finite s m q hm) : Canonical m q ∧ q ≤ 971 :=
  (Encodes.of_unpack h).canonical

theorem isNaN_eq_false_iff {x : Float} : x.isNaN = false ↔ x.toModel.unpack ≠ .notANumber := by
  rw [← Bool.not_eq_true]
  exact not_congr isNaN_iff

/-- Packing a number of the format and unpacking it again changes nothing. -/
theorem unpack_pack {m : Nat} {q : Int} (hc : Canonical m q) (hq : q ≤ 971) (s : Sign) :
    (Float.Model.pack (.finite s m q hc.pos)).unpack = .finite s m q hc.pos := by
  obtain ⟨b, hb⟩ := @Encodes.of_canonical s m q hc hq
  unfold Float.Model.unpack Float.Model.pack
  dsimp only
  rw [hb.pack hc.pos]
  exact hb.unpack hc.pos

theorem neg_pack {m : Nat} {q : Int} (hc : Canonical m q) (hq : q ≤ 971) (s : Sign) :
    Float.neg (.ofModel (.pack (.finite s m q hc.pos))) =
      .ofModel (.pack (.finite (-s) m q hc.pos)) := by
  show Float.ofModel (Float.Model.pack (Float.Model.pack _).unpack.neg) = _
  rw [unpack_pack hc hq s]
  rfl

/-! ### Reading a decimal -/

/-- A natural of at most 53 bits, shifted up until all of them are in use. -/
theorem canonical_shift {n : Nat} (hpos : 0 < n) (hlt : n < 2 ^ 53) :
    Canonical (n <<< (52 - n.log2)) (0 - (52 - n.log2 : Nat)) := by
  have hlog : n.log2 < 53 := (Nat.log2_lt hpos.ne').mpr hlt
  have hfull : 2 ^ 52 ≤ n <<< (52 - n.log2) := by
    rw [Nat.shiftLeft_eq]
    calc 2 ^ 52 = 2 ^ n.log2 * 2 ^ (52 - n.log2) := by
          rw [← Nat.pow_add]
          congr 1
          omega
      _ ≤ n * 2 ^ (52 - n.log2) := Nat.mul_le_mul_right _ (Nat.log2_self_le hpos.ne')
  have hbits : n <<< (52 - n.log2) < 2 ^ 53 := by
    rw [Nat.shiftLeft_eq]
    calc n * 2 ^ (52 - n.log2) < 2 ^ (n.log2 + 1) * 2 ^ (52 - n.log2) :=
          Nat.mul_lt_mul_of_pos_right Nat.lt_log2_self (Nat.two_pow_pos _)
      _ = 2 ^ 53 := by
          rw [← Nat.pow_add]
          congr 1
          omega
  exact ⟨by omega, hbits, by omega, Or.inl hfull⟩

/-- Naturals of at most 53 bits are doubles. -/
theorem unpack_ofNat {n : Nat} (hpos : 0 < n) (hlt : n < 2 ^ 53) :
    ∃ m q hm, (Float.Model.ofNat n).unpack = .finite .positive m q hm ∧ (m : ℚ) * 2 ^ q = n := by
  have hc := canonical_shift hpos hlt
  have hlog : n.log2 < 53 := (Nat.log2_lt hpos.ne').mpr hlt
  have hshift : (0 - Format.binary64.targetExponent (totalExponent n 0)).toNat = 52 - n.log2 := by
    rw [targetExponent_eq, totalExponent]
    omega
  have hround : UnpackedFloat.round .binary64 .positive n 0 =
      .finite .positive (n <<< (52 - n.log2)) (0 - (52 - n.log2 : Nat)) hc.pos := by
    unfold UnpackedFloat.round decreaseExponent
    dsimp only
    rw [hshift]
    exact round_exact_of_owns hc (.self _ _) (Or.inl (hc.full.resolve_right (by omega))) _
  have hmodel : Float.Model.ofNat n =
      Float.Model.pack (UnpackedFloat.round .binary64 .positive n 0) := by
    unfold Float.Model.ofNat UnpackedFloat.ofNat UnpackedFloat.ofInt UnpackedFloat.normalize
    rw [Int.compare_eq_gt.mpr (by omega)]
    rfl
  refine ⟨n <<< (52 - n.log2), 0 - (52 - n.log2 : Nat), hc.pos, ?_, ?_⟩
  · rw [hmodel, hround]
    exact unpack_pack hc (by omega) .positive
  · rw [Nat.shiftLeft_eq, zero_sub, zpow_neg, zpow_natCast]
    push_cast
    field_simp

/-- Whether an unpacked double is a power of ten. -/
def isPowerOfTen (e : Nat) : UnpackedFloat → Bool
  | .finite .positive m q _ => m * 2 ^ q.toNat = 10 ^ e * 2 ^ (-q).toNat
  | _ => false

theorem isPowerOfTen_table (e : Nat) (h : e < Float.exactlyRepresentablePowersOfTen.size) :
    isPowerOfTen e (Float.exactlyRepresentablePowersOfTen[e]).toModel.unpack = true := by
  have hall : ∀ e : Fin 23,
      isPowerOfTen e (Float.exactlyRepresentablePowersOfTen[e]).toModel.unpack = true := by
    decide +kernel
  exact hall ⟨e, h⟩

theorem of_isPowerOfTen {e : Nat} {u : UnpackedFloat} (h : isPowerOfTen e u = true) :
    ∃ m q hm, u = .finite .positive m q hm ∧ (m : ℚ) * 2 ^ q = 10 ^ e := by
  unfold isPowerOfTen at h
  split at h
  · rename_i m q hm
    refine ⟨m, q, hm, rfl, ?_⟩
    have hnat := of_decide_eq_true h
    have hcast : (m : ℚ) * 2 ^ q.toNat = 10 ^ e * 2 ^ (-q).toNat := by exact_mod_cast hnat
    have hq : (q.toNat : Int) - (-q).toNat = q := by omega
    rw [← hq, zpow_sub₀ two_ne_zero, zpow_natCast, zpow_natCast, ← mul_div_assoc, hcast]
    exact mul_div_cancel_right₀ _ (pow_ne_zero _ two_ne_zero)
  · exact absurd h (by simp)

theorem toFloat_toUInt64 {n : Nat} (h : n < 2 ^ 53) :
    n.toUInt64.toFloat = .ofModel (Float.Model.ofNat n) := by
  have hn : n.toUInt64.toNat = n := UInt64.toNat_ofNat_of_lt (by unfold UInt64.size; omega)
  unfold UInt64.toFloat Float.Model.ofUInt64 UnpackedFloat.ofUInt64 Float.Model.ofNat
  rw [hn]

section Decimal

variable {m n e : Nat} {q : Int}

/-- What a double owns is not zero. -/
theorem pos_of_owns (hc : Canonical m q) (ho : Owns m q (n / 10 ^ e)) : 0 < n := by
  rcases Nat.eq_zero_or_pos n with rfl | hpos
  · have hlow := ho.low
    have hm : (1 : ℚ) ≤ m := by exact_mod_cast hc.pos
    norm_num at hlow
    linarith
  · exact hpos

/-- A decimal of few digits is read by dividing two exact doubles. -/
theorem ofScientific_small (hc : Canonical m q) (ho : Owns m q (n / 10 ^ e))
    (h : n < 2 ^ 53 ∧ e ≤ 22) :
    Float.ofScientific n true e = .ofModel (.pack (.finite .positive m q hc.pos)) := by
  obtain ⟨m₁, q₁, h₁, hnum, hnumValue⟩ := unpack_ofNat (pos_of_owns hc ho) h.1
  have hsize : Float.exactlyRepresentablePowersOfTen.size = 23 := rfl
  obtain ⟨m₂, q₂, h₂, hden, hdenValue⟩ := of_isPowerOfTen (isPowerOfTen_table e (by omega))
  have hquotient : Owns m q (m₁ * 2 ^ q₁ / (m₂ * 2 ^ q₂)) := by
    rw [hnumValue, hdenValue]
    exact ho
  unfold Float.ofScientific
  rw [dif_pos h]
  dsimp only
  rw [if_pos rfl, toFloat_toUInt64 h.1]
  show Float.ofModel (.pack (UnpackedFloat.div .binary64 (Float.Model.ofNat n).unpack _)) = _
  rw [hnum, hden, div_of_owns h₁ h₂ hc hquotient]
  rfl

/-- A decimal that a double owns does not have so many places that it is taken for zero. -/
theorem places_le (hc : Canonical m q) (ho : Owns m q (n / 10 ^ e)) : e ≤ 2048 + n.log2 := by
  by_contra hmany
  have hm : (1 : ℚ) ≤ m := by exact_mod_cast hc.pos
  have hlow : (2 : ℚ) ^ (-1075 : Int) ≤ n / 10 ^ e := by
    have hunit : (1 : ℚ) / 2 ≤ n / 10 ^ e / 2 ^ q := by linarith [ho.low]
    rw [le_div_iff₀ (two_zpow_pos q)] at hunit
    calc (2 : ℚ) ^ (-1075 : Int) ≤ 2 ^ (q - 1) :=
          (zpow_le_zpow_iff_right₀ one_lt_two).mpr (by linarith [hc.le])
      _ = 1 / 2 * 2 ^ q := by
          rw [zpow_sub_one₀ two_ne_zero]
          ring
      _ ≤ n / 10 ^ e := hunit
  have hhigh : (n : ℚ) / 10 ^ e < 2 ^ (-1075 : Int) := by
    have hn : (n : ℚ) < 2 ^ (n.log2 + 1) := by exact_mod_cast Nat.lt_log2_self (n := n)
    have hten : (2 : ℚ) ^ e ≤ 10 ^ e := pow_le_pow_left₀ (by norm_num) (by norm_num) e
    rw [div_lt_iff₀ (by positivity)]
    calc (n : ℚ) < 2 ^ (n.log2 + 1) := hn
      _ ≤ 2 ^ (-1075 : Int) * 2 ^ e := by
          rw [← zpow_natCast, ← zpow_natCast, ← zpow_add₀ two_ne_zero]
          exact (zpow_le_zpow_iff_right₀ one_lt_two).mpr (by omega)
      _ ≤ 2 ^ (-1075 : Int) * 10 ^ e := mul_le_mul_of_nonneg_left hten (two_zpow_pos _).le
  exact absurd hhigh (not_lt.mpr hlow)

/-- Otherwise it is read by dividing two naturals, or by a product if it is a natural. -/
theorem ofScientific_large (hc : Canonical m q) (ho : Owns m q (n / 10 ^ e))
    (h : ¬ (n < 2 ^ 53 ∧ e ≤ 22)) :
    Float.ofScientific n true e = .ofModel (.pack (.finite .positive m q hc.pos)) := by
  have hpos := pos_of_owns hc ho
  have hplaces := places_le hc ho
  have hrange : (2 : Int) ^ Format.binary64.exponentBits = 2048 := rfl
  unfold Float.ofScientific
  rw [dif_neg h]
  dsimp only
  rw [if_pos rfl, Int.negOfNat_eq]
  unfold Float.Model.ofScientific UnpackedFloat.ofScientific
  rw [dif_neg hpos.ne', hrange, if_neg (by simp), if_neg (by simp; omega)]
  by_cases hnatural : 0 ≤ -Int.ofNat e
  · obtain rfl : e = 0 := by simpa using hnatural
    rw [if_pos hnatural]
    have hvalue : ((n <<< 53 * 10 ^ 0 : Nat) : ℚ) * 2 ^ (-53 + 0 : Int) = n / 10 ^ 0 := by
      rw [Nat.shiftLeft_eq]
      push_cast
      norm_num
      ring
    have hfull : 2 ^ 52 ≤ n <<< 53 * 10 ^ 0 := by
      rw [Nat.shiftLeft_eq]
      omega
    have hround := round_exact_of_owns hc (hvalue ▸ ho) (Or.inl hfull) .positive
    exact congrArg (fun u => Float.ofModel (.pack u)) hround
  · rw [if_neg hnatural]
    have hden : (-(-Int.ofNat e)).toNat = e := by simp
    have hquotient :
        Owns m q (n * 2 ^ (0 : Int) / ((10 ^ (-(-Int.ofNat e)).toNat : Nat) * 2 ^ (0 : Int))) := by
      rw [hden]
      push_cast
      simpa using ho
    rw [div_of_owns hpos _ hc hquotient]
    rfl

/-- **A decimal is read as the double that owns it.** -/
theorem ofScientific_of_owns (hc : Canonical m q) (ho : Owns m q (n / 10 ^ e)) :
    Float.ofScientific n true e = .ofModel (.pack (.finite .positive m q hc.pos)) := by
  by_cases h : n < 2 ^ 53 ∧ e ≤ 22
  · exact ofScientific_small hc ho h
  · exact ofScientific_large hc ho h

end Decimal

end DualStack.Binary
