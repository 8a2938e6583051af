/-
A finite number is written as a numeral that reads back as the number.

A decimal written out by position is digits with at most one point among them, so
it is one numeral; the natural its digits spell and the number of places after the
point have the decimal as their quotient.  Reading divides the two, and since the
decimal belongs to the number it was written for, the quotient rounds to that
number.  The sign is taken off and put back.
-/
import DualStack.Decimal.Numeral
import DualStack.Proofs.Shortest

namespace DualStack.Decimal

open Binary Float.Model.UnpackedFloat

/-! ### Digits -/

theorem isDigit_of_mem_digitsOf {n : Nat} {c : Char} (h : c ∈ digitsOf n) : isDigit c = true := by
  have hdigit := Nat.isDigit_of_mem_toDigits (by decide) (by decide) h
  simp only [Char.isDigit, Bool.and_eq_true, decide_eq_true_eq] at hdigit
  simp only [isDigit, Bool.and_eq_true, decide_eq_true_eq]
  exact hdigit

theorem natOf_digitsOf (n : Nat) : natOf (digitsOf n) = n :=
  Nat.ofDigitChars_ten_toDigits

theorem natOf_append_zeros (digits : List Char) (n : Nat) :
    natOf (digits ++ List.replicate n '0') = natOf digits * 10 ^ n := by
  show Nat.ofDigitChars 10 _ 0 = Nat.ofDigitChars 10 digits 0 * 10 ^ n
  rw [Nat.ofDigitChars_append, Nat.ofDigitChars_replicate_zero, Nat.mul_comm]

theorem natOf_zeros_append (digits : List Char) (n : Nat) :
    natOf (List.replicate n '0' ++ digits) = natOf digits := by
  show Nat.ofDigitChars 10 _ 0 = Nat.ofDigitChars 10 digits 0
  rw [Nat.ofDigitChars_append, Nat.ofDigitChars_replicate_zero, Nat.mul_zero]

theorem natOf_concat (digits : List Char) (c : Char) :
    natOf (digits ++ [c]) = 10 * natOf digits + (c.toNat - '0'.toNat) := by
  unfold natOf
  rw [List.foldl_append]
  rfl

/-- A digit is written as itself. -/
theorem digitChar_of_isDigit {c : Char} (h : isDigit c = true) :
    c.toNat - '0'.toNat < 10 ∧ Nat.digitChar (c.toNat - '0'.toNat) = c := by
  simp only [isDigit, Bool.and_eq_true, decide_eq_true_eq] at h
  have hlow : 48 ≤ c.toNat := h.1
  have hhigh : c.toNat ≤ 57 := h.2
  have hself := Char.ofNat_toNat c
  generalize c.toNat = n at *
  subst hself
  interval_cases n <;> decide

/-- **Digits are those of the number they spell**, unless the first of them is a zero. -/
theorem digitsOf_natOf {digits : List Char} (hdigits : ∀ c ∈ digits, isDigit c = true)
    (hne : digits ≠ []) (hhead : digits.head? ≠ some '0') : digitsOf (natOf digits) = digits := by
  induction digits using List.reverseRecOn with
  | nil => exact absurd rfl hne
  | append_singleton digits c ih =>
      obtain ⟨hlt, hchar⟩ := digitChar_of_isDigit (hdigits c (by simp))
      rw [natOf_concat, digitsOf, Nat.toDigits_eq_if (by decide)]
      rcases eq_or_ne digits [] with rfl | hsome
      · have hnil : natOf [] = 0 := rfl
        rw [hnil, Nat.mul_zero, Nat.zero_add, if_pos hlt, hchar, List.nil_append]
      · rw [List.head?_append_of_ne_nil _ hsome] at hhead
        have hfront := ih (fun d hd => hdigits d (List.mem_append_left _ hd)) hsome hhead
        have hpos : 0 < natOf digits := by
          refine Nat.pos_of_ne_zero fun hzero => hhead ?_
          rw [← hfront, hzero]
          rfl
        have hdiv : (10 * natOf digits + (c.toNat - '0'.toNat)) / 10 = natOf digits := by omega
        have hmod : (10 * natOf digits + (c.toNat - '0'.toNat)) % 10 = c.toNat - '0'.toNat := by
          omega
        rw [if_neg (by omega), hdiv, hmod, hchar]
        exact congrArg (· ++ [c]) hfront
theorem isDigit_of_mem_zeros {n : Nat} {c : Char} (h : c ∈ List.replicate n '0') :
    isDigit c = true := by
  rw [List.eq_of_mem_replicate h]
  decide

/-! ### Numerals -/

/-- Digits with at most one point among, before or after them and at least one digit, with the
rational they denote. -/
inductive Mantissa : List Char → ℚ → Prop
  | whole {digits : List Char} (hdigits : ∀ c ∈ digits, isDigit c = true) (hne : digits ≠ []) :
      Mantissa digits (natOf digits)
  | point {whole fraction : List Char} (hwhole : ∀ c ∈ whole, isDigit c = true)
      (hfraction : ∀ c ∈ fraction, isDigit c = true) (hne : whole ++ fraction ≠ []) :
      Mantissa (whole ++ '.' :: fraction) (natOf (whole ++ fraction) / 10 ^ fraction.length)

/-- A mantissa is read as a natural divided by a power of ten. -/
theorem Mantissa.read {cs : List Char} {v : ℚ} (h : Mantissa cs v) :
    ∃ n places : Nat, readUnsigned? cs = some (Float.ofScientific n true places) ∧
      (n : ℚ) / 10 ^ places = v := by
  cases h with
  | whole hdigits hne =>
      have htake : cs.takeWhile isDigit = cs := by
        rw [← List.append_nil cs, List.takeWhile_append_of_pos hdigits, List.takeWhile_nil]
      have hdrop : cs.dropWhile isDigit = [] := by
        rw [← List.append_nil cs, List.dropWhile_append_of_pos hdigits, List.dropWhile_nil]
      refine ⟨natOf cs, 0, ?_, by rw [pow_zero, div_one]⟩
      unfold readUnsigned?
      rw [htake, hdrop]
      dsimp only
      rw [if_neg (by simpa using hne), nearest, List.append_nil]
      rfl
  | @point whole fraction hwhole hfraction hne =>
      have hpoint : ¬ isDigit '.' = true := by decide
      have htake : (whole ++ '.' :: fraction).takeWhile isDigit = whole := by
        rw [List.takeWhile_append_of_pos hwhole, List.takeWhile_cons_of_neg hpoint, List.append_nil]
      have hdrop : (whole ++ '.' :: fraction).dropWhile isDigit = '.' :: fraction := by
        rw [List.dropWhile_append_of_pos hwhole, List.dropWhile_cons_of_neg hpoint]
      have hall : fraction.all isDigit = true := List.all_eq_true.mpr hfraction
      have hsome : ¬ (whole.isEmpty = true ∧ fraction.isEmpty = true) := by simpa using hne
      refine ⟨natOf (whole ++ fraction), fraction.length, ?_, rfl⟩
      unfold readUnsigned?
      rw [htake, hdrop]
      dsimp only
      rw [if_pos ⟨rfl, hall, hsome⟩]
      rfl

/-- A numeral without a sign that starts with a digit, with the rational it denotes. -/
inductive Numeral : List Char → ℚ → Prop
  | whole {whole : List Char} (hwhole : ∀ c ∈ whole, isDigit c = true) (hne : whole ≠ []) :
      Numeral whole (natOf whole)
  | point {whole fraction : List Char} (hwhole : ∀ c ∈ whole, isDigit c = true) (hne : whole ≠ [])
      (hfraction : ∀ c ∈ fraction, isDigit c = true) :
      Numeral (whole ++ '.' :: fraction) (natOf (whole ++ fraction) / 10 ^ fraction.length)

namespace Numeral

variable {cs : List Char} {v : ℚ}

theorem mantissa (h : Numeral cs v) : Mantissa cs v := by
  cases h with
  | whole hwhole hne => exact .whole hwhole hne
  | point hwhole hne hfraction => exact .point hwhole hfraction (by simp [hne])

/-- A numeral is digits and points, and a digit comes first. -/
theorem chars (h : Numeral cs v) :
    (∀ c ∈ cs, isDigit c = true ∨ c = '.') ∧ ∃ c rest, cs = c :: rest ∧ isDigit c = true := by
  cases h with
  | whole hwhole hne =>
      refine ⟨fun c hc => Or.inl (hwhole c hc), ?_⟩
      obtain ⟨c, rest, rfl⟩ := List.exists_cons_of_ne_nil hne
      exact ⟨c, rest, rfl, hwhole c (List.mem_cons_self ..)⟩
  | @point whole fraction hwhole hne hfraction =>
      constructor
      · intro c hc
        rcases List.mem_append.mp hc with hc | hc
        · exact Or.inl (hwhole c hc)
        · rcases List.mem_cons.mp hc with rfl | hc
          · exact Or.inr rfl
          · exact Or.inl (hfraction c hc)
      · obtain ⟨c, rest, rfl⟩ := List.exists_cons_of_ne_nil hne
        exact ⟨c, _, rfl, hwhole c (List.mem_cons_self ..)⟩

end Numeral

/-! ### The three layouts of a decimal -/

section Layouts

variable {digits : List Char} (hdigits : ∀ c ∈ digits, isDigit c = true)
include hdigits

/-- Zeros after the digits. -/
theorem numeral_above (hne : digits ≠ []) (n : Nat) :
    Numeral (digits ++ List.replicate n '0') ((natOf digits : ℚ) * 10 ^ n) := by
  have hall : ∀ c ∈ digits ++ List.replicate n '0', isDigit c = true := by
    intro c hc
    rcases List.mem_append.mp hc with hc | hc
    · exact hdigits c hc
    · exact isDigit_of_mem_zeros hc
  have hvalue : (natOf digits : ℚ) * 10 ^ n = natOf (digits ++ List.replicate n '0') := by
    rw [natOf_append_zeros]
    push_cast
    rfl
  rw [hvalue]
  exact .whole hall (by simp [hne])

/-- The point among the digits. -/
theorem numeral_among {places : Nat} (h : places < digits.length) :
    Numeral (digits.take (digits.length - places) ++ '.' :: digits.drop (digits.length - places))
      ((natOf digits : ℚ) / 10 ^ places) := by
  have hlength : (digits.drop (digits.length - places)).length = places := by
    rw [List.length_drop]
    omega
  have hvalue : (natOf digits : ℚ) / 10 ^ places =
      natOf (digits.take (digits.length - places) ++ digits.drop (digits.length - places)) /
        10 ^ (digits.drop (digits.length - places)).length := by
    rw [List.take_append_drop, hlength]
  have hfront : digits.take (digits.length - places) ≠ [] := by
    rw [← List.length_pos_iff, List.length_take]
    omega
  rw [hvalue]
  exact .point (fun c hc => hdigits c (List.mem_of_mem_take hc)) hfront
    fun c hc => hdigits c (List.mem_of_mem_drop hc)

/-- The point before the digits, and zeros between them. -/
theorem numeral_below {places : Nat} (h : digits.length ≤ places) :
    Numeral ('0' :: '.' :: (List.replicate (places - digits.length) '0' ++ digits))
      ((natOf digits : ℚ) / 10 ^ places) := by
  have hlength : (List.replicate (places - digits.length) '0' ++ digits).length = places := by
    rw [List.length_append, List.length_replicate]
    omega
  have hspelt : natOf (['0'] ++ (List.replicate (places - digits.length) '0' ++ digits)) =
      natOf digits := by
    rw [← List.replicate_one, natOf_zeros_append, natOf_zeros_append]
  have hvalue : (natOf digits : ℚ) / 10 ^ places =
      natOf (['0'] ++ (List.replicate (places - digits.length) '0' ++ digits)) /
        10 ^ (List.replicate (places - digits.length) '0' ++ digits).length := by
    rw [hspelt, hlength]
  have hfraction : ∀ c ∈ List.replicate (places - digits.length) '0' ++ digits,
      isDigit c = true := by
    intro c hc
    rcases List.mem_append.mp hc with hc | hc
    · exact isDigit_of_mem_zeros hc
    · exact hdigits c hc
  have hzero : ∀ c ∈ ['0'], isDigit c = true := by simp [isDigit]
  rw [hvalue]
  exact .point hzero (by simp) hfraction

end Layouts

/-- **A decimal written out by position is a numeral of its value.** -/
theorem Scaled.positional_numeral (d : Scaled) : Numeral d.positional d.value := by
  have hdigits : ∀ c ∈ digitsOf d.coefficient, isDigit c = true :=
    fun c h => isDigit_of_mem_digitsOf h
  have hne : digitsOf d.coefficient ≠ [] := Nat.toDigits_ne_nil
  unfold Scaled.positional Scaled.value
  dsimp only
  by_cases hwhole : 0 ≤ d.exponent
  · have hnumeral := numeral_above hdigits hne d.exponent.toNat
    rw [natOf_digitsOf, ← zpow_natCast, Int.toNat_of_nonneg hwhole] at hnumeral
    rw [if_pos hwhole]
    exact hnumeral
  · have hexponent : d.exponent = -((-d.exponent).toNat : Int) := by omega
    have hvalue : (d.coefficient : ℚ) * 10 ^ d.exponent =
        natOf (digitsOf d.coefficient) / 10 ^ (-d.exponent).toNat := by
      rw [natOf_digitsOf, div_eq_mul_inv, ← zpow_natCast, ← zpow_neg, ← hexponent]
    rw [if_neg hwhole, hvalue]
    by_cases hinside : (-d.exponent).toNat < (digitsOf d.coefficient).length
    · rw [if_pos hinside]
      exact numeral_among hdigits hinside
    · rw [if_neg hinside]
      exact numeral_below hdigits (Nat.le_of_not_lt hinside)

/-! ### Numbers -/

/-- Whether a sign is written. -/
def isNegative (s : Sign) : Bool :=
  s matches .negative

/-- The number with its sign changed if asked for. -/
def applySign (negative : Bool) (x : Float) : Float :=
  if negative then x.neg else x

theorem readUnsigned?_zero :
    readUnsigned? ['0'] = some (.ofModel (.pack (.zero .positive))) := by
  decide +kernel

theorem applySign_zero (s : Sign) :
    applySign (isNegative s) (.ofModel (.pack (.zero .positive))) =
      .ofModel (.pack (.zero s)) := by
  cases s <;> decide +kernel

theorem applySign_pack {m : Nat} {q : Int} (hc : Canonical m q) (hq : q ≤ 971)
    (s : Sign) :
    applySign (isNegative s) (.ofModel (.pack (.finite .positive m q hc.pos))) =
      .ofModel (.pack (.finite s m q hc.pos)) := by
  cases s with
  | negative => exact neg_pack hc hq .positive
  | positive => rfl

/-- A finite number is written as an optional sign and a numeral of its absolute value. -/
theorem write_numeral {style : Style} (hstyle : ∀ e, style.positional e = true) {x : Float}
    (hx : x.isFinite = true) :
    ∃ negative cs v, (write style x).toList = signMark negative ++ cs ∧ Numeral cs v ∧
      (readUnsigned? cs).map (applySign negative) = some x := by
  obtain ⟨model⟩ := x
  unfold write
  cases h : model.unpack with
  | notANumber =>
      have hnot : model.unpack.isFinite = true := hx
      rw [h] at hnot
      exact absurd hnot (by decide)
  | infinity s =>
      have hnot : model.unpack.isFinite = true := hx
      rw [h] at hnot
      exact absurd hnot (by simp [Float.Model.UnpackedFloat.isFinite])
  | zero s =>
      have hdigit : ∀ c ∈ ['0'], isDigit c = true := by simp [isDigit]
      refine ⟨isNegative s, ['0'], _, ?_, .whole hdigit (by simp), ?_⟩
      · exact String.toList_ofList
      · rw [readUnsigned?_zero, Option.map_some, applySign_zero, pack_of_unpack h]
  | finite s m q hm =>
      obtain ⟨hc, hq⟩ := canonical_of_unpack h
      have hnumeral := (shortest m q).positional_numeral
      obtain ⟨n, places, hread, hvalue⟩ := hnumeral.mantissa.read
      have howns : Owns m q ((n : ℚ) / 10 ^ places) := hvalue ▸ shortest_owned hc
      refine ⟨isNegative s, (shortest m q).positional, _, ?_, hnumeral, ?_⟩
      · dsimp only
        rw [String.toList_ofList, Scaled.write, if_pos (hstyle _)]
        rfl
      · rw [hread, Option.map_some, ofScientific_of_owns hc howns, applySign_pack hc hq,
          pack_of_unpack h]

/-- **A finite number written out by position reads back as the number.** -/
theorem read?_write {style : Style} (hstyle : ∀ e, style.positional e = true) {x : Float}
    (hx : x.isFinite = true) : read? (write style x).toList = some x := by
  obtain ⟨negative, cs, v, hwrite, hnumeral, hread⟩ := write_numeral hstyle hx
  rw [hwrite]
  cases negative with
  | true => exact hread
  | false =>
      obtain ⟨-, c, rest, rfl, hdigit⟩ := hnumeral.chars
      have hplain : read? (c :: rest) = readUnsigned? (c :: rest) := by
        unfold read?
        split
        · rename_i heq
          cases heq
          exact absurd hdigit (by decide)
        · rfl
      show read? (c :: rest) = some x
      rw [hplain, ← hread]
      exact (Option.map_id' ..).symm

end DualStack.Decimal
