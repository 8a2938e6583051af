/-
What a printed number says.

A number is printed by its shortest decimal, either written out by position or as one
digit, the others behind a point, and an exponent.  Both layouts are numbers of the
decimal grammar and denote the same rational, that of the decimal itself.  Only the
second contains an `e`, so a reader can tell them apart, and where the exponent is not
between -4 and 5 the second is chosen.

The digits are those that no others are preferred to (`ShortestDigits`), and there is one
choice of them.  The shortest decimal belongs to its double and to no other, so what was
printed can be told from the text: zeros by their sign, the infinities by their letters,
and all other numbers by the decimal that the text denotes.
-/
import DualStack.Proofs.DecimalText
import DualStack.Proofs.NearestDigits
import DualStack.Value

namespace DualStack.Decimal

open Binary Float.Model.UnpackedFloat

/-! ### Digits and exponents -/

/-- The first digit of a number is not zero. -/
theorem head_digitsOf {n : Nat} (hn : 0 < n) : (digitsOf n).head? ≠ some '0' := by
  induction n using Nat.strong_induction_on with
  | _ n ih =>
      unfold digitsOf
      rw [Nat.toDigits_eq_if (by decide)]
      by_cases hsmall : n < 10
      · rw [if_pos hsmall]
        interval_cases n <;> decide
      · rw [if_neg hsmall, List.head?_append_of_ne_nil _ Nat.toDigits_ne_nil]
        exact ih (n / 10) (by omega) (by omega)

/-- An exponent is written with a sign and at least two digits. -/
theorem exponentMark_eq (e : Int) : ∃ digits, exponentMark e =
      'e' :: (if e < 0 then '-' else '+') :: digits ∧ (∀ c ∈ digits, isDigit c = true) ∧
      2 ≤ digits.length ∧ natOf digits = e.natAbs := by
  have hdigits : ∀ c ∈ digitsOf e.natAbs, isDigit c = true := fun c h => isDigit_of_mem_digitsOf h
  unfold exponentMark
  dsimp only
  by_cases hshort : (digitsOf e.natAbs).length < 2
  · have hpos : 0 < (digitsOf e.natAbs).length := Nat.length_toDigits_pos
    refine ⟨'0' :: digitsOf e.natAbs, by rw [if_pos hshort], ?_, Nat.succ_le_succ hpos, ?_⟩
    · exact List.forall_mem_cons.mpr ⟨by decide, hdigits⟩
    · exact (natOf_zeros_append (digitsOf e.natAbs) 1).trans (natOf_digitsOf e.natAbs)
  · exact ⟨_, by rw [if_neg hshort], hdigits, Nat.le_of_not_lt hshort, natOf_digitsOf e.natAbs⟩

theorem exponent_of_sign {e : Int} {digits : List Char} (hdigits : ∀ c ∈ digits, isDigit c = true)
    (hne : digits ≠ []) (hvalue : natOf digits = e.natAbs) :
    Exponent ((if e < 0 then '-' else '+') :: digits) e := by
  by_cases hneg : e < 0
  · have hminus : e = -(natOf digits : Int) := by omega
    rw [if_pos hneg, hminus]
    exact .minus hdigits hne
  · have hplus : e = (natOf digits : Int) := by omega
    rw [if_neg hneg, hplus]
    exact .plus hdigits hne

/-! ### The two layouts of a decimal -/

namespace Scaled

variable {d : Scaled} {first : Char} {rest : List Char}

/-- One digit, and the others behind a point. -/
def mantissa (first : Char) (rest : List Char) : List Char :=
  first :: if rest = [] then [] else '.' :: rest

theorem mantissa_denotes (hdigits : ∀ c ∈ first :: rest, isDigit c = true) :
    Mantissa (mantissa first rest) (natOf (first :: rest) / 10 ^ rest.length) := by
  unfold mantissa
  by_cases hrest : rest = []
  · rw [if_pos hrest, hrest, List.length_nil, pow_zero, div_one]
    exact .whole (by simpa [hrest] using hdigits) (by simp)
  · obtain ⟨hfirst, hothers⟩ := List.forall_mem_cons.mp hdigits
    rw [if_neg hrest]
    have hwhole : ∀ c ∈ [first], isDigit c = true := by simpa using hfirst
    exact .point hwhole hothers (by simp)

/-- The digits behind the first one lower the exponent. -/
theorem value_eq (h : digitsOf d.coefficient = first :: rest) :
    d.value = natOf (first :: rest) / 10 ^ rest.length * 10 ^ d.leading := by
  have hleading : d.leading = d.exponent + rest.length := by
    rw [leading, h, List.length_cons]
    push_cast
    ring
  rw [← h, natOf_digitsOf, hleading, zpow_add₀ (by norm_num), zpow_natCast, value]
  field_simp

theorem scientific_eq (h : digitsOf d.coefficient = first :: rest) :
    d.scientific = mantissa first rest ++ exponentMark d.leading := by
  unfold scientific mantissa
  rw [h]
  cases rest with
  | nil => rfl
  | cons c rest => rfl

theorem scientific_denotes (h : digitsOf d.coefficient = first :: rest) :
    Unsigned d.scientific d.value := by
  have hdigits : ∀ c ∈ first :: rest, isDigit c = true :=
    h ▸ fun c hc => isDigit_of_mem_digitsOf hc
  obtain ⟨digits, hmark, hall, htwo, hvalue⟩ := exponentMark_eq d.leading
  have hne : digits ≠ [] := List.ne_nil_of_length_pos (by omega)
  rw [scientific_eq h, hmark, value_eq h]
  exact .scaled (mantissa_denotes hdigits) (by decide) (exponent_of_sign hall hne hvalue)

/-- **Both layouts of a decimal denote its value.** -/
theorem write_denotes (style : Style) (h : digitsOf d.coefficient = first :: rest) :
    Unsigned (d.write style) d.value := by
  unfold write
  split
  · exact .plain d.positional_numeral.mantissa
  · exact scientific_denotes h

/-- Only the layout with an exponent contains an `e`. -/
theorem mem_write_iff (style : Style) (h : digitsOf d.coefficient = first :: rest) :
    'e' ∈ d.write style ↔ style.positional d.leading = false := by
  unfold write
  cases style.positional d.leading with
  | true =>
      rw [if_pos rfl]
      have hnone : 'e' ∉ d.positional := fun hmem =>
        absurd (d.positional_numeral.mantissa.chars 'e' hmem) (by decide)
      exact ⟨fun hmem => absurd hmem hnone, fun hfalse => absurd hfalse (by decide)⟩
  | false =>
      rw [if_neg (by decide), scientific_eq h]
      exact ⟨fun _ => rfl, fun _ => by simp [exponentMark]⟩

end Scaled

/-! ### The digits of the shortest decimal -/

theorem coefficient_pos {m : Nat} {q : Int} (hc : Canonical m q) :
    0 < (shortest m q).coefficient := by
  have hone : (1 : ℚ) ≤ m := by exact_mod_cast hc.pos
  have hlow := (shortest_owned hc).low
  refine Nat.pos_of_ne_zero fun hzero => ?_
  rw [Scaled.value, hzero, Nat.cast_zero, zero_mul, zero_div] at hlow
  linarith

theorem value_pos {m : Nat} {q : Int} (hc : Canonical m q) : 0 < (shortest m q).value := by
  have hcoefficient : (0 : ℚ) < (shortest m q).coefficient := by exact_mod_cast coefficient_pos hc
  unfold Scaled.value
  positivity

theorem shortestDigits_of_shortest {m : Nat} {q : Int} (hc : Canonical m q) :
    ∃ first rest, digitsOf (shortest m q).coefficient = first :: rest ∧
      ShortestDigits m q first rest (shortest m q).leading := by
  obtain ⟨first, rest, h⟩ :=
    List.exists_cons_of_ne_nil (Nat.toDigits_ne_nil (n := (shortest m q).coefficient) (b := 10))
  have h : digitsOf (shortest m q).coefficient = first :: rest := h
  have hhead := head_digitsOf (coefficient_pos hc)
  rw [h, List.head?_cons] at hhead
  refine ⟨first, rest, h, h ▸ fun c hc => isDigit_of_mem_digitsOf hc, ?_, ?_, ?_, ?_⟩
  · exact fun hzero => hhead (congrArg some hzero)
  · exact Scaled.value_eq h ▸ shortest_owned hc
  · exact fun c f ho => h ▸ shortest_fewest hc ho
  · exact fun c f ho hlength => Scaled.value_eq h ▸ shortest_preferred hc ho (h ▸ hlength)

/-! ### Printed numbers -/

/-- A rational with the sign of a number. -/
def withSign (s : Sign) (v : ℚ) : ℚ :=
  if isNegative s then -v else v

theorem Unsigned.withSign {cs : List Char} {v : ℚ} (h : Unsigned cs v) (s : Sign) :
    Signed (signMark (isNegative s) ++ cs) (withSign s v) := by
  cases s with
  | positive => exact .plain h
  | negative => exact .minus h

/-- A rational and its sign can be told from each other. -/
theorem withSign_inj {s t : Sign} {v w : ℚ} (hv : 0 < v) (hw : 0 < w)
    (h : withSign s v = withSign t w) : s = t ∧ v = w := by
  unfold withSign at h
  cases s with
  | positive =>
      cases t with
      | positive => exact ⟨rfl, h⟩
      | negative =>
          have h : v = -w := h
          linarith
  | negative =>
      cases t with
      | positive =>
          have h : -v = w := h
          linarith
      | negative => exact ⟨rfl, neg_injective h⟩

/-- A decimal belongs to one double. -/
theorem owner_unique {d : Scaled} {m m' : Nat} {q q' : Int} (hc : Canonical m q) (hq : q ≤ 971)
    (hc' : Canonical m' q') (hq' : q' ≤ 971) (ho : Owns m q d.value) (ho' : Owns m' q' d.value) :
    m = m' ∧ q = q' := by
  obtain ⟨n, places, -, hvalue⟩ := d.positional_numeral.mantissa.read
  rw [← hvalue] at ho ho'
  have hsame := (ofScientific_of_owns hc ho).symm.trans (ofScientific_of_owns hc' ho')
  have hunpack := congrArg (fun x : Float => x.toModel.unpack) hsame
  dsimp only at hunpack
  rw [unpack_pack hc hq, unpack_pack hc' hq'] at hunpack
  cases hunpack
  exact ⟨rfl, rfl⟩

end DualStack.Decimal

namespace DualStack.Value

open Decimal Binary Float.Model.UnpackedFloat

variable {x y : Float} {s : Sign} {m : Nat} {q : Int} {hm : 0 < m}

theorem display_finite (h : x.toModel.unpack = .finite s m q hm) :
    (display (.number x)).toList =
      signMark (isNegative s) ++ (shortest m q).write numberStyle := by
  show (write numberStyle x).toList = _
  unfold write
  rw [h]
  exact String.toList_ofList

/-- The text of a zero. -/
def zeroText (s : Sign) : List Char :=
  signMark (isNegative s) ++ ['0']

theorem display_zero (h : x.toModel.unpack = .zero s) :
    (display (.number x)).toList = zeroText s := by
  show (write numberStyle x).toList = _
  unfold write
  rw [h]
  exact String.toList_ofList

/-- The text of an infinity. -/
def infinityText (s : Sign) : List Char :=
  (if isNegative s then '-' else '+') :: ['I', 'n', 'f']

theorem display_infinity (h : x.toModel.unpack = .infinity s) :
    (display (.number x)).toList = infinityText s := by
  show (write numberStyle x).toList = _
  unfold write
  rw [h]
  cases s <;> decide

/-- A finite number other than zero is printed as a numeral of its shortest decimal. -/
theorem display_finite_denotes (h : x.toModel.unpack = .finite s m q hm) :
    Signed (display (.number x)).toList (withSign s (shortest m q).value) := by
  obtain ⟨first, rest, hdigits, -⟩ := shortestDigits_of_shortest (canonical_of_unpack h).1
  rw [display_finite h]
  exact (Scaled.write_denotes numberStyle hdigits).withSign s

theorem display_zero_denotes (h : x.toModel.unpack = .zero s) :
    Signed (display (.number x)).toList 0 := by
  have hzero : Unsigned ['0'] 0 := by
    have hwhole : Mantissa ['0'] (natOf ['0']) := .whole (by simp [isDigit]) (by simp)
    exact .plain (by simpa [natOf] using hwhole)
  have hsame : withSign s 0 = 0 := by cases s <;> simp [withSign]
  rw [display_zero h, ← hsame]
  exact hzero.withSign s

/-- No numeral is the text of an infinity. -/
theorem not_signed_infinity {v : ℚ} (h : x.toModel.unpack = .infinity s) :
    ¬ Signed (display (.number x)).toList v := by
  intro hsigned
  have hmem : 'I' ∈ (display (.number x)).toList := by simp [display_infinity h, infinityText]
  exact absurd (hsigned.chars 'I' hmem) (by decide)

/-- Where the texts of two signs differ, the sign can be told from the text. -/
theorem sign_eq_of_texts {t : Sign} (text : Sign → List Char)
    (hdiffer : text .positive ≠ text .negative) (h : text s = text t) : s = t := by
  cases s with
  | positive =>
      cases t with
      | positive => rfl
      | negative => exact absurd h hdiffer
  | negative =>
      cases t with
      | positive => exact absurd h.symm hdiffer
      | negative => rfl

/-- Numbers that unpack to the same are the same. -/
theorem eq_of_unpack_eq (h : x.toModel.unpack = y.toModel.unpack) : x = y := by
  have hmodel : x.toModel = y.toModel := (pack_of_unpack h).symm.trans (pack_of_unpack rfl)
  cases x
  cases y
  exact congrArg Float.ofModel hmodel

theorem eq_of_display_finite {t : Sign} {k : Nat} {r : Int} {hk : 0 < k}
    (hx : x.toModel.unpack = .finite s m q hm) (hy : y.toModel.unpack = .finite t k r hk)
    (h : display (.number x) = display (.number y)) : x = y := by
  obtain ⟨hc, hq⟩ := canonical_of_unpack hx
  obtain ⟨hc', hq'⟩ := canonical_of_unpack hy
  have ho := shortest_owned hc
  have ho' := shortest_owned hc'
  have hvalues := (display_finite_denotes hx).unique (h ▸ display_finite_denotes hy)
  obtain ⟨rfl, hvalue⟩ := withSign_inj (value_pos hc) (value_pos hc') hvalues
  obtain ⟨rfl, rfl⟩ := owner_unique hc hq hc' hq' ho (hvalue ▸ ho')
  exact eq_of_unpack_eq (hx.trans hy.symm)

theorem withSign_ne_zero (s : Sign) {v : ℚ} (hv : 0 < v) : withSign s v ≠ 0 := by
  cases s with
  | positive => exact hv.ne'
  | negative => exact neg_ne_zero.mpr hv.ne'

/-- The text of a zero is not that of another finite number. -/
theorem display_zero_ne_finite {t : Sign} (hx : x.toModel.unpack = .zero t)
    (hy : y.toModel.unpack = .finite s m q hm) : display (.number x) ≠ display (.number y) := by
  intro h
  have hvalues := (display_finite_denotes hy).unique (h ▸ display_zero_denotes hx)
  exact withSign_ne_zero s (value_pos (canonical_of_unpack hy).1) hvalues

/-- **Numbers other than NaN that are printed alike are the same.** -/
theorem eq_of_display_eq (hx : x.isNaN = false) (hy : y.isNaN = false)
    (h : display (.number x) = display (.number y)) : x = y := by
  rw [isNaN_eq_false_iff] at hx hy
  cases hu : x.toModel.unpack with
  | notANumber => exact absurd hu hx
  | infinity s =>
      cases hv : y.toModel.unpack with
      | notANumber => exact absurd hv hy
      | infinity t =>
          have htexts := (display_infinity hu).symm.trans (h ▸ display_infinity hv)
          obtain rfl := sign_eq_of_texts infinityText (by decide) htexts
          exact eq_of_unpack_eq (hu.trans hv.symm)
      | zero t => exact absurd (h ▸ display_zero_denotes hv) (not_signed_infinity hu)
      | finite t k r hk => exact absurd (h ▸ display_finite_denotes hv) (not_signed_infinity hu)
  | zero s =>
      cases hv : y.toModel.unpack with
      | notANumber => exact absurd hv hy
      | infinity t => exact absurd (h ▸ display_zero_denotes hu) (not_signed_infinity hv)
      | zero t =>
          have htexts := (display_zero hu).symm.trans (h ▸ display_zero hv)
          obtain rfl := sign_eq_of_texts zeroText (by decide) htexts
          exact eq_of_unpack_eq (hu.trans hv.symm)
      | finite t k r hk => exact absurd h (display_zero_ne_finite hu hv)
  | finite s m q hm =>
      cases hv : y.toModel.unpack with
      | notANumber => exact absurd hv hy
      | infinity t => exact absurd (h ▸ display_finite_denotes hu) (not_signed_infinity hv)
      | zero t => exact absurd h.symm (display_zero_ne_finite hv hu)
      | finite t k r hk => exact eq_of_display_finite hu hv h

/-- The layout of a finite number other than zero, and where it has an exponent. -/
theorem display_finite_layout (h : x.toModel.unpack = .finite s m q hm) :
    ('e' ∈ (display (.number x)).toList ↔
      (shortest m q).leading < -4 ∨ 6 ≤ (shortest m q).leading) ∧
    ('e' ∈ (display (.number x)).toList → ∃ mantissa sign digits,
      (display (.number x)).toList = mantissa ++ 'e' :: sign :: digits ∧ 'e' ∉ mantissa ∧
      (sign = '+' ∨ sign = '-') ∧ 2 ≤ digits.length ∧ (∀ c ∈ digits, isDigit c = true) ∧
      Exponent (sign :: digits) (shortest m q).leading) := by
  obtain ⟨first, rest, hdigits, hshortest⟩ :=
    shortestDigits_of_shortest (canonical_of_unpack h).1
  have hsign : 'e' ∉ signMark (isNegative s) := by cases s <;> decide
  have hwhere : 'e' ∈ (display (.number x)).toList ↔
      numberStyle.positional (shortest m q).leading = false := by
    rw [display_finite h, List.mem_append, or_iff_right hsign,
      Scaled.mem_write_iff numberStyle hdigits]
  have hrange : numberStyle.positional (shortest m q).leading = false ↔
      (shortest m q).leading < -4 ∨ 6 ≤ (shortest m q).leading := by
    simp only [numberStyle, Bool.and_eq_false_iff, decide_eq_false_iff_not, not_le, not_lt]
  refine ⟨hwhere.trans hrange, fun hmem => ?_⟩
  obtain ⟨digits, hmark, hall, htwo, hvalue⟩ := exponentMark_eq (shortest m q).leading
  have hmantissa := Scaled.mantissa_denotes hshortest.digits
  have hnone : 'e' ∉ Scaled.mantissa first rest := fun hc =>
    absurd (hmantissa.chars 'e' hc) (by decide)
  have hne : digits ≠ [] := List.ne_nil_of_length_pos (by omega)
  refine ⟨signMark (isNegative s) ++ Scaled.mantissa first rest, _, digits, ?_, ?_, ?_, htwo, hall,
    exponent_of_sign hall hne hvalue⟩
  · rw [display_finite h, Scaled.write, if_neg (by simp [hwhere.mp hmem]),
      Scaled.scientific_eq hdigits, hmark, List.append_assoc]
  · simp [hsign, hnone]
  · split
    · exact Or.inr rfl
    · exact Or.inl rfl

/--
**The text of a number says which number it is.**

A finite number other than zero is printed by the digits `first :: rest` of its shortest
decimal and the exponent `e` of the first of them.  They name it and no other number; no
fewer digits name it, of as many digits that do these are the nearest, the upper ones on
a tie, and no other digits are like that.  The text is a decimal numeral, and denotes
exactly what these digits and this exponent say.  It has an exponent of its own if `e`
is below -4 or at least 6, with a sign and at least two digits, and otherwise there is
no letter `e` in it.

Numbers other than NaN that have the same text are the same number, zeros with their
sign and infinities included.
-/
theorem number_text_faithful :
    (∀ (x : Float) (s : Sign) (m : Nat) (q : Int) (hm : 0 < m),
      x.toModel.unpack = .finite s m q hm → ∃ first rest e,
        digitsOf (shortest m q).coefficient = first :: rest ∧ e = (shortest m q).leading ∧
        ShortestDigits m q first rest e ∧
        (∀ first' rest' e', ShortestDigits m q first' rest' e' →
          first' = first ∧ rest' = rest ∧ e' = e) ∧
        Signed (display (.number x)).toList
          (withSign s (natOf (first :: rest) / 10 ^ rest.length * 10 ^ e)) ∧
        ('e' ∈ (display (.number x)).toList ↔ e < -4 ∨ 6 ≤ e) ∧
        ('e' ∈ (display (.number x)).toList → ∃ mantissa sign digits,
          (display (.number x)).toList = mantissa ++ 'e' :: sign :: digits ∧ 'e' ∉ mantissa ∧
          (sign = '+' ∨ sign = '-') ∧ 2 ≤ digits.length ∧ (∀ c ∈ digits, isDigit c = true) ∧
          Exponent (sign :: digits) e)) ∧
    ∀ x y : Float, x.isNaN = false → y.isNaN = false →
      display (.number x) = display (.number y) → x = y := by
  refine ⟨?_, fun x y => eq_of_display_eq⟩
  intro x s m q hm h
  obtain ⟨first, rest, hdigits, hshortest⟩ :=
    shortestDigits_of_shortest (canonical_of_unpack h).1
  obtain ⟨hwhere, hlayout⟩ := display_finite_layout h
  refine ⟨first, rest, _, hdigits, rfl, hshortest, ?_, ?_, hwhere, hlayout⟩
  · exact fun first' rest' e' => hshortest.unique
  · rw [← Scaled.value_eq hdigits]
    exact display_finite_denotes h

/-- Fifteen millionths with a minus sign: the mantissa has a point and the exponent is padded.  And
a sum that is printed as a literal is that literal. -/
theorem number_text_faithful_padded_exponent :
    (-0.000015 : Float).toModel.unpack = .finite .negative 8854437155380585 (-69) (by decide) ∧
    ShortestDigits 8854437155380585 (-69) '1' ['5'] (-5) ∧
    Signed "-1.5e-05".toList (withSign .negative (natOf ['1', '5'] / 10 ^ 1 * 10 ^ (-5 : Int))) ∧
    ('e' ∈ "-1.5e-05".toList ↔ (-5 : Int) < -4 ∨ 6 ≤ (-5 : Int)) ∧
    (0.1 + 0.2 : Float) = 0.30000000000000004 := by
  obtain ⟨faithful, injective⟩ := number_text_faithful
  have hunpack : (-0.000015 : Float).toModel.unpack =
      .finite .negative 8854437155380585 (-69) (by decide) := by
    have hc : Canonical 8854437155380585 (-69) := by constructor <;> norm_num
    have hpacked : (-0.000015 : Float) =
        .ofModel (.pack (.finite .negative 8854437155380585 (-69) (by decide))) := by
      decide +kernel
    rw [hpacked]
    exact unpack_pack hc (by norm_num) .negative
  have htext : display (.number (-0.000015)) = "-1.5e-05" := by decide +kernel
  have hcoefficient : digitsOf (shortest 8854437155380585 (-69)).coefficient = ['1', '5'] := by
    decide +kernel
  have hleading : (shortest 8854437155380585 (-69)).leading = -5 := by decide +kernel
  obtain ⟨first, rest, e, hdigits, he, hshortest, -, hsigned, hwhere, -⟩ :=
    faithful _ _ _ _ _ hunpack
  rw [hcoefficient] at hdigits
  rw [hleading] at he
  cases hdigits
  subst he
  rw [htext] at hsigned hwhere
  exact ⟨hunpack, hshortest, hsigned, hwhere,
    injective _ _ (by decide +kernel) (by decide +kernel) (by decide +kernel)⟩

end DualStack.Value
