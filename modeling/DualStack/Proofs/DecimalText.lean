/-
Decimal numbers as texts, and what they denote.

A number is a mantissa, digits with at most one point among them, and possibly an
exponent behind an `e`; a sign may stand in front.  These are the texts that
readers of doubles agree on, apart from the names of infinities and NaN.  `Signed` says
which texts are such numbers and which rational each of them denotes.

A text denotes one number at most (`Signed.unique`): no mantissa contains an `e`, and no
digits contain a point, so there is one way to take a text apart.
-/
import DualStack.Proofs.Numerals

namespace DualStack.Decimal

/-! ### The grammar -/

/-- Digits with an optional sign. -/
inductive Exponent : List Char → Int → Prop
  | plain {digits : List Char} (hdigits : ∀ c ∈ digits, isDigit c = true) (hne : digits ≠ []) :
      Exponent digits (natOf digits)
  | plus {digits : List Char} (hdigits : ∀ c ∈ digits, isDigit c = true) (hne : digits ≠ []) :
      Exponent ('+' :: digits) (natOf digits)
  | minus {digits : List Char} (hdigits : ∀ c ∈ digits, isDigit c = true) (hne : digits ≠ []) :
      Exponent ('-' :: digits) (-natOf digits)

/-- The letters an exponent stands behind. -/
def isMark (c : Char) : Bool :=
  c = 'e' || c = 'E'

/-- A mantissa, possibly with an exponent. -/
inductive Unsigned : List Char → ℚ → Prop
  | plain {cs : List Char} {v : ℚ} (h : Mantissa cs v) : Unsigned cs v
  | scaled {cs es : List Char} {mark : Char} {v : ℚ} {e : Int} (h : Mantissa cs v)
      (hmark : isMark mark = true) (he : Exponent es e) : Unsigned (cs ++ mark :: es) (v * 10 ^ e)

/-- A number with an optional sign in front. -/
inductive Signed : List Char → ℚ → Prop
  | plain {cs : List Char} {v : ℚ} (h : Unsigned cs v) : Signed cs v
  | plus {cs : List Char} {v : ℚ} (h : Unsigned cs v) : Signed ('+' :: cs) v
  | minus {cs : List Char} {v : ℚ} (h : Unsigned cs v) : Signed ('-' :: cs) (-v)

/-! ### Taking numbers apart -/

section

variable {c : Char} {cs es : List Char} {v w : ℚ} {e f : Int}

namespace Mantissa

theorem chars (h : Mantissa cs v) : ∀ c ∈ cs, isDigit c = true ∨ c = '.' := by
  intro c hc
  cases h with
  | whole hdigits => exact Or.inl (hdigits c hc)
  | point hwhole hfraction =>
      rcases List.mem_append.mp hc with hc | hc
      · exact Or.inl (hwhole c hc)
      · rcases List.mem_cons.mp hc with rfl | hc
        · exact Or.inr rfl
        · exact Or.inl (hfraction c hc)

theorem ne_nil (h : Mantissa cs v) : cs ≠ [] := by
  cases h with
  | whole hdigits hne => exact hne
  | point hwhole hfraction hne => simp

/-- The digits and the places behind the point tell what a mantissa denotes. -/
theorem value_eq (h : Mantissa cs v) :
    v = natOf (cs.filter isDigit) / 10 ^ ((cs.dropWhile isDigit).drop 1).length := by
  cases h with
  | whole hdigits hne =>
      have hdrop : cs.dropWhile isDigit = [] := List.dropWhile_eq_nil_iff.mpr hdigits
      rw [List.filter_eq_self.mpr hdigits, hdrop, List.drop_nil, List.length_nil, pow_zero, div_one]
  | point hwhole hfraction hne =>
      have hpoint : ¬ isDigit '.' = true := by decide
      rw [List.filter_append, List.filter_cons_of_neg hpoint, List.filter_eq_self.mpr hwhole,
        List.filter_eq_self.mpr hfraction, List.dropWhile_append_of_pos hwhole,
        List.dropWhile_cons_of_neg hpoint, List.drop_one, List.tail_cons]

theorem unique (h : Mantissa cs v) (h' : Mantissa cs w) : v = w :=
  h.value_eq.trans h'.value_eq.symm

end Mantissa

theorem Exponent.chars (h : Exponent es e) : ∀ c ∈ es, isDigit c = true ∨ c = '+' ∨ c = '-' := by
  intro c hc
  cases h with
  | plain hdigits => exact Or.inl (hdigits c hc)
  | plus hdigits =>
      rcases List.mem_cons.mp hc with rfl | hc
      · exact Or.inr (Or.inl rfl)
      · exact Or.inl (hdigits c hc)
  | minus hdigits =>
      rcases List.mem_cons.mp hc with rfl | hc
      · exact Or.inr (Or.inr rfl)
      · exact Or.inl (hdigits c hc)

theorem Exponent.unique (h : Exponent es e) (h' : Exponent es f) : e = f := by
  cases h with
  | plain hdigits =>
      cases h' with
      | plain => rfl
      | plus => exact absurd (hdigits '+' (by simp)) (by decide)
      | minus => exact absurd (hdigits '-' (by simp)) (by decide)
  | plus =>
      cases h' with
      | plain hdigits => exact absurd (hdigits '+' (by simp)) (by decide)
      | plus => rfl
  | minus =>
      cases h' with
      | plain hdigits => exact absurd (hdigits '-' (by simp)) (by decide)
      | minus => rfl

/-- An exponent does not begin within a mantissa. -/
theorem Mantissa.noMark (h : Mantissa cs v) : ∀ c ∈ cs, (!isMark c) = true := by
  intro c hc
  rw [Bool.not_eq_true', Bool.eq_false_iff]
  intro hmark
  rcases Bool.or_eq_true .. ▸ hmark with hmark | hmark
  all_goals
    rw [decide_eq_true_eq] at hmark
    rcases h.chars c hc with hdigit | hpoint
    · exact absurd (hmark ▸ hdigit) (by decide)
    · exact absurd (hmark.symm.trans hpoint) (by decide)

/-- The mark of its exponent, if it has one, divides a number. -/
theorem Unsigned.parts (h : Unsigned cs v) : ∃ u, Mantissa (cs.takeWhile (!isMark ·)) u ∧
    (cs.dropWhile (!isMark ·) = [] ∧ v = u ∨
      ∃ mark es e, cs.dropWhile (!isMark ·) = mark :: es ∧ Exponent es e ∧ v = u * 10 ^ e) := by
  cases h with
  | plain h =>
      refine ⟨v, ?_, Or.inl ⟨List.dropWhile_eq_nil_iff.mpr h.noMark, rfl⟩⟩
      rwa [List.takeWhile_eq_self_iff.mpr h.noMark]
  | @scaled front es mark u e h hmark he =>
      refine ⟨u, ?_, Or.inr ⟨mark, es, e, ?_, he, rfl⟩⟩
      · rw [List.takeWhile_append_of_pos h.noMark]
        simpa [hmark] using h
      · rw [List.dropWhile_append_of_pos h.noMark]
        simp [hmark]

theorem Unsigned.unique (h : Unsigned cs v) (h' : Unsigned cs w) : v = w := by
  obtain ⟨u, hu, hrest⟩ := h.parts
  obtain ⟨u', hu', hrest'⟩ := h'.parts
  obtain rfl := hu.unique hu'
  rcases hrest with ⟨hnone, rfl⟩ | ⟨mark, es, e, hsome, he, rfl⟩
  · rcases hrest' with ⟨-, rfl⟩ | ⟨mark, es, e, hsome, -, -⟩
    · rfl
    · exact absurd (hnone.symm.trans hsome) (by simp)
  · rcases hrest' with ⟨hnone, -⟩ | ⟨mark', es', e', hsome', he', rfl⟩
    · exact absurd (hnone.symm.trans hsome) (by simp)
    · obtain ⟨-, rfl⟩ := List.cons.inj (hsome.symm.trans hsome')
      rw [he.unique he']

/-- The characters of numbers without a sign in front. -/
theorem Unsigned.chars (h : Unsigned cs v) :
    ∀ c ∈ cs, isDigit c = true ∨ c ∈ ['.', 'e', 'E', '+', '-'] := by
  intro c hc
  cases h with
  | plain h => exact (h.chars c hc).imp_right (by rintro rfl; simp)
  | scaled h hmark he =>
      rcases List.mem_append.mp hc with hc | hc
      · exact (h.chars c hc).imp_right (by rintro rfl; simp)
      · rcases List.mem_cons.mp hc with rfl | hc
        · refine Or.inr ?_
          simp only [isMark, Bool.or_eq_true, decide_eq_true_eq] at hmark
          rcases hmark with rfl | rfl <;> simp
        · exact (he.chars c hc).imp_right (by rintro (rfl | rfl) <;> simp)

/-- A number begins with its mantissa. -/
theorem Unsigned.head (h : Unsigned (c :: cs) v) : isDigit c = true ∨ c = '.' := by
  obtain ⟨u, hu, -⟩ := h.parts
  by_cases hmark : isMark c = true
  · exact absurd (by simp [hmark]) hu.ne_nil
  · exact hu.chars c (by simp [hmark])

theorem Signed.chars (h : Signed cs v) :
    ∀ c ∈ cs, isDigit c = true ∨ c ∈ ['.', 'e', 'E', '+', '-'] := by
  intro c hc
  cases h with
  | plain h => exact h.chars c hc
  | plus h =>
      rcases List.mem_cons.mp hc with rfl | hc
      · simp
      · exact h.chars c hc
  | minus h =>
      rcases List.mem_cons.mp hc with rfl | hc
      · simp
      · exact h.chars c hc

/-- **A text denotes one number at most.** -/
theorem Signed.unique (h : Signed cs v) (h' : Signed cs w) : v = w := by
  cases h with
  | plain h =>
      cases h' with
      | plain h' => exact h.unique h'
      | plus => exact absurd h.head (by decide)
      | minus => exact absurd h.head (by decide)
  | plus h =>
      cases h' with
      | plain h' => exact absurd h'.head (by decide)
      | plus h' => exact h.unique h'
  | minus h =>
      cases h' with
      | plain h' => exact absurd h'.head (by decide)
      | minus h' => rw [h.unique h']

end

end DualStack.Decimal
