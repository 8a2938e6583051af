/-
Which runs of characters are numbers.

A token that starts with a digit or a minus sign goes on for as long as there are digits,
points and minus signs, and what came together is then given to a reader of doubles.
Such a reader takes much more than the language has numbers for (`FloatText`), but none
of what it takes besides is made of these characters: a run is a number exactly if it is
an optional minus sign and digits with at most one point (`IsSignedDecimal`).

No number that is read is NaN.  A decimal is read by dividing or multiplying two finite
numbers and rounding, which may give an infinity or zero but never NaN, and changing the
sign does not either.  So every number in a parsed forest equals itself, and the forest
does.
-/
import DualStack.Proofs.DecimalText
import DualStack.Proofs.Equality
import DualStack.Proofs.Render
import DualStack.Proofs.Spans

namespace DualStack

/-! ### What is read is a number -/

namespace Binary

open Float.Model Float.Model.UnpackedFloat

variable {u v : UnpackedFloat}

theorem roundWithAccuracy_ne_nan (format : Format) (s : Sign) (m : Nat) (e : Int)
    (accuracy : Accuracy) : roundWithAccuracy format s m e accuracy ≠ .notANumber := by
  unfold roundWithAccuracy
  dsimp only
  split <;> simp

/-- The pattern of a number is not one of NaN. -/
theorem isNaNBits_pack (hu : u ≠ .notANumber) :
    isNaNBits (UnpackedFloat.pack .binary64 u) = false := by
  unfold isNaNBits
  fun_cases UnpackedFloat.pack .binary64 u with
  | case1 => exact absurd rfl hu
  | case2 s => simp [packedInfinity]
  | case3 s => simp [packedZero]
  | case4 s => simp [packedInfinity]
  | case5 s m e hm bits exponent hrange hnormal =>
      -- The exponent of a finite number is not the largest one.
      have hexponent : BitVec.ofNat 11 exponent ≠ -1#11 := by
        intro hones
        have hrange : ¬ 2048 ≤ exponent + 1 := hrange
        have hsame : exponent % 2048 = 2047 := by
          rw [← BitVec.toNat_ofNat (w := 11), hones]
          rfl
        omega
      rw [unpackExponent_packComponents, decide_eq_false_iff_not]
      exact fun h => hexponent h.1
  | case6 s m => simp

theorem unpack_pack_ne_nan (hu : u ≠ .notANumber) :
    (Float.Model.pack u).unpack ≠ .notANumber := by
  intro hnan
  have hbits : UnpackedFloat.pack .binary64 u = packedNaN .binary64 :=
    (unpack_eq_notANumber_iff_of_valid (Float.Model.pack u).valid).mp hnan
  have hpack := isNaNBits_pack hu
  rw [hbits, isNaNBits_packedNaN] at hpack
  exact absurd hpack (by decide)

/-- No decimal is read as NaN. -/
theorem unpacked_ofScientific_ne_nan (format : Format) (n : Nat) (e : Int) :
    UnpackedFloat.ofScientific format n e ≠ .notANumber := by
  unfold UnpackedFloat.ofScientific
  split
  · simp
  · split
    · simp
    · split
      · simp
      · split
        · exact roundWithAccuracy_ne_nan _ _ _ _ _
        · exact roundWithAccuracy_ne_nan _ _ _ _ _

/-- Naturals of at most 53 bits, zero included. -/
theorem unpack_ofNat_cases {n : Nat} (hlt : n < 2 ^ 53) :
    (Float.Model.ofNat n).unpack = .zero .positive ∨
      ∃ s m e hm, (Float.Model.ofNat n).unpack = .finite s m e hm := by
  rcases Nat.eq_zero_or_pos n with rfl | hpos
  · exact Or.inl unpack_packedZero
  · obtain ⟨m, e, hm, hunpack, -⟩ := unpack_ofNat hpos hlt
    exact Or.inr ⟨_, m, e, hm, hunpack⟩

theorem ofScientific_ne_nan (n e : Nat) :
    (Float.ofScientific n true e).toModel.unpack ≠ .notANumber := by
  unfold Float.ofScientific
  split
  · rename_i hsmall
    have hsize : Float.exactlyRepresentablePowersOfTen.size = 23 := rfl
    obtain ⟨m, q, hm, hpower, -⟩ := of_isPowerOfTen (isPowerOfTen_table e (by omega))
    dsimp only
    rw [if_pos rfl, toFloat_toUInt64 hsmall.1]
    refine unpack_pack_ne_nan ?_
    rw [hpower]
    rcases unpack_ofNat_cases hsmall.1 with hzero | ⟨s, m', e', hm', hfinite⟩
    · rw [hzero]
      simp [UnpackedFloat.div]
    · rw [hfinite]
      exact roundWithAccuracy_ne_nan _ _ _ _ _
  · exact unpack_pack_ne_nan (unpacked_ofScientific_ne_nan _ _ _)

theorem neg_ne_nan {x : Float} (hx : x.toModel.unpack ≠ .notANumber) :
    x.neg.toModel.unpack ≠ .notANumber := by
  refine unpack_pack_ne_nan ?_
  cases hu : x.toModel.unpack with
  | notANumber => exact absurd hu hx
  | _ => simp [UnpackedFloat.neg]

end Binary

/-! ### Runs that are numbers -/

namespace Decimal

variable {cs : List Char}

/-- Digits with at most one point among, before or after them, and at least one digit. -/
structure IsDecimal (cs : List Char) : Prop where
  chars : ∀ c ∈ cs, isDigit c = true ∨ c = '.'
  points : cs.count '.' ≤ 1
  digit : ∃ c ∈ cs, isDigit c = true

/-- A decimal with an optional minus sign in front. -/
def IsSignedDecimal (cs : List Char) : Prop :=
  ∃ body, (cs = body ∨ cs = '-' :: body) ∧ IsDecimal body

/-- The texts a reader of doubles takes: a number, or the name of an infinity or of NaN in letters
of either case, with an optional sign in front. -/
inductive FloatText : List Char → Prop
  | number {cs : List Char} {v : ℚ} (h : Signed cs v) : FloatText cs
  | name {sign cs : List Char} (hsign : sign = [] ∨ sign = ['+'] ∨ sign = ['-'])
      (h : String.ofList (cs.map Char.toLower) ∈ ["inf", "infinity", "nan"]) :
      FloatText (sign ++ cs)

theorem count_point_digits (h : ∀ c ∈ cs, isDigit c = true) : cs.count '.' = 0 :=
  List.count_eq_zero.mpr fun hpoint => absurd (h '.' hpoint) (by decide)

theorem IsDecimal.isDigit_of_notMem (h : IsDecimal cs) {ds : List Char} (hsub : ds ⊆ cs)
    (hnone : '.' ∉ ds) : ∀ d ∈ ds, isDigit d = true := by
  intro d hd
  rcases h.chars d (hsub hd) with hdigit | rfl
  · exact hdigit
  · exact absurd hd hnone

/-- A decimal is divided by its point, if it has one. -/
theorem IsDecimal.mantissa (h : IsDecimal cs) : ∃ v, Mantissa cs v := by
  obtain ⟨c, hc, hdigit⟩ := h.digit
  by_cases hpoint : '.' ∈ cs
  · obtain ⟨whole, fraction, rfl, hfirst⟩ := List.eq_append_cons_of_mem hpoint
    have hsecond : '.' ∉ fraction := by
      have hpoints := h.points
      rw [List.count_append, List.count_cons_self] at hpoints
      exact List.count_eq_zero.mp (by omega)
    have hne : whole ++ fraction ≠ [] := by
      intro hnil
      rw [List.append_eq_nil_iff] at hnil
      rw [hnil.1, hnil.2] at hc
      exact absurd hdigit (by rw [List.mem_singleton.mp hc]; decide)
    exact ⟨_, .point (h.isDigit_of_notMem (by simp) hfirst) (h.isDigit_of_notMem (by simp) hsecond)
      hne⟩
  · exact ⟨_, .whole (h.isDigit_of_notMem (List.Subset.refl cs) hpoint) (List.ne_nil_of_mem hc)⟩

theorem Mantissa.isDecimal {v : ℚ} (h : Mantissa cs v) : IsDecimal cs := by
  refine ⟨h.chars, ?_, ?_⟩
  · cases h with
    | whole hdigits =>
        rw [count_point_digits hdigits]
        exact Nat.zero_le 1
    | point hwhole hfraction =>
        rw [List.count_append, List.count_cons_self, count_point_digits hwhole,
          count_point_digits hfraction]
  · cases h with
    | whole hdigits hne =>
        obtain ⟨c, hc⟩ := List.exists_mem_of_ne_nil _ hne
        exact ⟨c, hc, hdigits c hc⟩
    | point hwhole hfraction hne =>
        obtain ⟨c, hc⟩ := List.exists_mem_of_ne_nil _ hne
        rcases List.mem_append.mp hc with hc | hc
        · exact ⟨c, by simp [hc], hwhole c hc⟩
        · exact ⟨c, by simp [hc], hfraction c hc⟩

/-- What is read without a sign are decimals. -/
theorem mantissa_of_readUnsigned? {x : Float} (h : readUnsigned? cs = some x) :
    ∃ v, Mantissa cs v := by
  have hparts : cs.takeWhile isDigit ++ cs.dropWhile isDigit = cs := List.takeWhile_append_dropWhile
  have hwhole : ∀ c ∈ cs.takeWhile isDigit, isDigit c = true :=
    List.all_eq_true.mp List.all_takeWhile
  unfold readUnsigned? at h
  dsimp only at h
  generalize cs.takeWhile isDigit = whole at *
  cases hrest : cs.dropWhile isDigit with
  | nil =>
      rw [hrest, List.append_nil] at hparts
      rw [hrest] at h
      have hne : whole ≠ [] := by
        rintro rfl
        exact absurd h (by simp)
      rw [← hparts]
      exact ⟨_, .whole hwhole hne⟩
  | cons point fraction =>
      rw [hrest] at hparts h
      dsimp only at h
      split at h
      · rename_i hpoint
        obtain ⟨rfl, hfraction, hne⟩ := hpoint
        rw [← hparts]
        exact ⟨_, .point hwhole (List.all_eq_true.mp hfraction) (by simpa using hne)⟩
      · exact absurd h (by simp)

theorem readUnsigned?_isSome_iff : (readUnsigned? cs).isSome = true ↔ IsDecimal cs := by
  constructor
  · intro h
    obtain ⟨x, hx⟩ := Option.isSome_iff_exists.mp h
    obtain ⟨v, hmantissa⟩ := mantissa_of_readUnsigned? hx
    exact hmantissa.isDecimal
  · intro h
    obtain ⟨v, hmantissa⟩ := h.mantissa
    obtain ⟨n, places, hread, -⟩ := hmantissa.read
    rw [hread]
    rfl

/-- No decimal starts with a sign. -/
theorem not_isDecimal_minus : ¬ IsDecimal ('-' :: cs) :=
  fun h => absurd (h.chars '-' List.mem_cons_self) (by decide)

/-- **What is read are the signed decimals.** -/
theorem read?_isSome_iff : (read? cs).isSome = true ↔ IsSignedDecimal cs := by
  unfold read?
  split
  · rename_i body
    rw [Option.isSome_map, readUnsigned?_isSome_iff]
    constructor
    · exact fun h => ⟨body, Or.inr rfl, h⟩
    · rintro ⟨body', rfl | hbody, h⟩
      · exact absurd h not_isDecimal_minus
      · cases hbody
        exact h
  · rename_i hplain
    rw [readUnsigned?_isSome_iff]
    constructor
    · exact fun h => ⟨cs, Or.inl rfl, h⟩
    · rintro ⟨body, rfl | rfl, h⟩
      · exact h
      · exact absurd rfl (hplain body)

/-- **No number that is read is NaN.** -/
theorem isNaN_of_read? {x : Float} (h : read? cs = some x) : x.isNaN = false := by
  have hunsigned : ∀ {body : List Char} {y : Float}, readUnsigned? body = some y →
      y.toModel.unpack ≠ .notANumber := by
    intro body y hy
    obtain ⟨v, hmantissa⟩ := mantissa_of_readUnsigned? hy
    obtain ⟨n, places, hread, -⟩ := hmantissa.read
    rw [hy, Option.some.injEq] at hread
    rw [hread]
    exact Binary.ofScientific_ne_nan n places
  rw [Binary.isNaN_eq_false_iff]
  unfold read? at h
  split at h
  · obtain ⟨y, hy, rfl⟩ := Option.map_eq_some_iff.mp h
    exact Binary.neg_ne_nan (hunsigned hy)
  · exact hunsigned h

/-! ### Runs that a reader of doubles takes -/

theorem isNumeric_iff {c : Char} : isNumeric c = true ↔ isDigit c = true ∨ c = '.' ∨ c = '-' := by
  simp [isNumeric, or_assoc]

/-- Numeric characters are not letters. -/
theorem toLower_of_isNumeric {c : Char} (h : isNumeric c = true) : c.toLower = c := by
  have hbelow : c.val ≤ '9'.val := by
    rcases isNumeric_iff.mp h with hdigit | rfl | rfl
    · simp only [isDigit, Bool.and_eq_true, decide_eq_true_eq] at hdigit
      exact hdigit.2
    · decide
    · decide
  unfold Char.toLower
  rw [dif_neg]
  rintro ⟨habove, -⟩
  exact absurd (UInt32.le_trans habove hbelow) (by decide)

/-- Without its letters there is no exponent. -/
theorem Unsigned.mantissa_of_isNumeric {v : ℚ} (h : Unsigned cs v)
    (hnumeric : ∀ c ∈ cs, isNumeric c = true) : Mantissa cs v := by
  cases h with
  | plain h => exact h
  | @scaled front es mark u e h hmark he =>
      have hletter := hnumeric mark (by simp)
      rw [isMark, Bool.or_eq_true, decide_eq_true_eq, decide_eq_true_eq] at hmark
      rcases hmark with rfl | rfl
      · exact absurd hletter (by decide)
      · exact absurd hletter (by decide)

/-- **Of the runs of digits, points and minus signs, a reader of doubles takes the signed
decimals.** -/
theorem floatText_iff (hnumeric : ∀ c ∈ cs, isNumeric c = true) :
    FloatText cs ↔ IsSignedDecimal cs := by
  constructor
  · intro h
    cases h with
    | number h =>
        cases h with
        | plain h => exact ⟨cs, Or.inl rfl, (h.mantissa_of_isNumeric hnumeric).isDecimal⟩
        | plus h => exact absurd (hnumeric '+' List.mem_cons_self) (by decide)
        | minus h =>
            have hbody := h.mantissa_of_isNumeric fun c hc =>
              hnumeric c (List.mem_cons_of_mem '-' hc)
            exact ⟨_, Or.inr rfl, hbody.isDecimal⟩
    | @name sign cs hsign h =>
        -- Each of the names has an `n` in it.
        have hmem : 'n' ∈ cs.map Char.toLower := by
          rw [← String.toList_ofList (l := cs.map Char.toLower)]
          simp only [List.mem_cons, List.not_mem_nil, or_false] at h
          rcases h with h | h | h <;> rw [h] <;> decide
        obtain ⟨c, hc, hlower⟩ := List.mem_map.mp hmem
        have hletter := hnumeric c (List.mem_append_right sign hc)
        rw [toLower_of_isNumeric hletter] at hlower
        exact absurd (hlower ▸ hletter) (by decide)
  · rintro ⟨body, hbody, hdecimal⟩
    obtain ⟨v, hmantissa⟩ := hdecimal.mantissa
    rcases hbody with rfl | rfl
    · exact .number (.plain (.plain hmantissa))
    · exact .number (.minus (.plain hmantissa))

end Decimal

/-! ### Tokens -/

/-- A token was read at some place in its source. -/
theorem exists_read_of_mem_tokens {t : Token} : ∀ offset cs before, Text.width before = offset →
    t ∈ Cursor.tokens ⟨offset, cs⟩ → ∃ front c rest, before ++ cs = front ++ c :: rest ∧
      Text.isSeparator c = false ∧ t = (Site.ofRead front c rest).token := by
  refine Cursor.scan_induction ?_ ?_ ?_
  · intro offset before _ ht
    rw [Cursor.tokens_nil] at ht
    exact absurd ht List.not_mem_nil
  · intro offset c cs hc ih before hbefore ht
    rw [Cursor.tokens_separator hc] at ht
    have hplace := ih (before ++ [c]) (by rw [Text.width_append, hbefore]) ht
    rwa [List.append_assoc, List.singleton_append] at hplace
  · intro offset c cs hc ih before hbefore ht
    rw [Cursor.tokens_cons hc] at ht
    rcases List.mem_cons.mp ht with rfl | ht
    · exact ⟨before, c, cs, rfl, hc, by rw [← hbefore]; rfl⟩
    · have hplace := ih (before ++ (Lexeme.read c cs).span) (by rw [Text.width_append, hbefore]) ht
      rwa [List.append_assoc, Lexeme.split_eq] at hplace

theorem Spells.numericKind_eq_number_iff {run : List Char} {x : Float} :
    numericKind run = .number x ↔ Decimal.read? run = some x := by
  unfold numericKind
  cases Decimal.read? run with
  | some y => simp
  | none => simp

namespace Lexeme

variable {c : Char} {cs : List Char}

/-- Only runs that start like numbers are numbers. -/
theorem startsNumber_of_kind {x : Float} (h : (read c cs).kind = .number x) :
    startsNumber c = true := by
  rcases read_cases c cs with ⟨kind, hkind, hread⟩ | ⟨-, hread⟩ | ⟨hstart, -⟩ | ⟨-, hread⟩
  · rw [hread] at h
    exact absurd h ((TokenKind.ofPunctuation?_not_literal hkind).2 x)
  · rw [hread] at h
    exact absurd h (by simp [quoted])
  · exact hstart
  · rw [hread] at h
    exact absurd h ((TokenKind.ofWord_not_literal _).2 x)

/-- A run that starts like a number is one if it can be read, and a word otherwise. -/
theorem kind_of_startsNumber (hc : startsNumber c = true) :
    (read c cs).kind = Spells.numericKind (c :: cs.takeWhile isNumeric) := by
  rw [Spells.read_numeric hc]
  rfl

theorem lexeme_of_startsNumber (hc : startsNumber c = true) :
    (String.ofList (read c cs).text).toList = c :: cs.takeWhile isNumeric := by
  rw [Spells.read_numeric hc, String.toList_ofList]
  rfl

/-- Numbers are not NaN. -/
theorem isNaN_of_kind {x : Float} (h : (read c cs).kind = .number x) : x.isNaN = false := by
  rw [kind_of_startsNumber (startsNumber_of_kind h), Spells.numericKind_eq_number_iff] at h
  exact Decimal.isNaN_of_read? h

/-- **A run that starts like a number is one exactly if it is a signed decimal.** -/
theorem number_iff (hc : startsNumber c = true) :
    (∃ x, (read c cs).kind = .number x) ↔
      Decimal.IsSignedDecimal (c :: cs.takeWhile isNumeric) := by
  simp only [kind_of_startsNumber hc, Spells.numericKind_eq_number_iff]
  rw [← Decimal.read?_isSome_iff, Option.isSome_iff_exists]

theorem word_of_not_decimal (hc : startsNumber c = true)
    (h : ¬ Decimal.IsSignedDecimal (c :: cs.takeWhile isNumeric)) : (read c cs).kind = .word := by
  rw [← Decimal.read?_isSome_iff, Option.not_isSome_iff_eq_none] at h
  rw [kind_of_startsNumber hc, Spells.numericKind, h]

end Lexeme

/-! ### Forests -/

namespace Node

/-- A number, if it is one, that is not NaN. -/
def IsNotNaN : Node → Prop
  | number x => x.isNaN = false
  | _ => True

mutual

/-- **A node equals itself exactly if no number in it is NaN.** -/
theorem same_self_iff : ∀ n : Node, same n n = true ↔ n.Every IsNotNaN
  | word _ => iff_of_true (by simp [same]) ((every_leaf rfl).mpr trivial)
  | reference _ => iff_of_true (by simp [same]) ((every_leaf rfl).mpr trivial)
  | text _ => iff_of_true (by simp [same]) ((every_leaf rfl).mpr trivial)
  | declaration _ => iff_of_true (by simp [same]) ((every_leaf rfl).mpr trivial)
  | number x => by
      rw [every_leaf rfl, same, Value.number_beq_self, Bool.not_eq_true]
      rfl
  | definition name body => by
      rw [every_scope trivial, inside, ← sameAll_self_iff body]
      simp [same]
  | conditional thenBody elseBody => by
      rw [every_scope trivial, inside, List.forall_mem_append, ← sameAll_self_iff thenBody,
        ← sameAll_self_iff elseBody]
      simp [same]
  | loop body => by
      rw [every_scope trivial, inside, ← sameAll_self_iff body]
      simp [same]
  | collection shape body => by
      rw [every_scope trivial, inside, ← sameAll_self_iff body]
      simp [same]

/-- A forest equals itself exactly if no number in it is NaN. -/
theorem sameAll_self_iff : ∀ ns : List Node, sameAll ns ns = true ↔ ∀ d ∈ closing ns, d.IsNotNaN
  | [] => by simp [sameAll, closing]
  | n :: ns => by
      rw [sameAll, Bool.and_eq_true, forall_closing_cons, same_self_iff n, sameAll_self_iff ns]

end

end Node

/-- The numbers among the tokens of a source are not NaN. -/
theorem isNaN_of_mem_scan {source : String} {t : Token} {x : Float} (ht : t ∈ Token.scan source)
    (hkind : t.kind = .number x) : x.isNaN = false := by
  obtain ⟨c, cs, offset, -, rfl⟩ := Cursor.of_mem_tokens ht
  exact Lexeme.isNaN_of_kind hkind

/-- A parsed forest equals itself. -/
theorem sameAll_of_parse {source : String} {forest : List Node} (h : parse source = .ok forest) :
    Node.sameAll forest forest = true := by
  refine (Node.sameAll_self_iff forest).mpr fun n hn => ?_
  cases n with
  | number x =>
      obtain ⟨t, ht, hkind⟩ := (Node.every_iff.mp (standsIn_of_parse h hn)).2
      exact isNaN_of_mem_scan ht hkind
  | _ => exact trivial

/--
**The numbers of a source are its signed decimals.**

Every token starts at some character of its source, behind which there is a run of digits,
points and minus signs that ends where there are no more.  If the token starts with a digit
or a minus sign, it is that character and the whole run.  It is a number then if they are
a signed decimal, which is to say if a reader of doubles takes them, and a word
otherwise.  No other token is a number, and no number is NaN; so what is parsed from the
same source twice is equal, with its numbers compared as numbers.
-/
theorem numbers_are_signed_decimals (source : String) :
    (∀ t ∈ Token.scan source, ∃ before c run after,
      source.toList = before ++ (c :: run ++ after) ∧ t.offset = Text.width before ∧
      (∀ d ∈ run, isNumeric d = true) ∧ (∀ d ∈ after.head?, isNumeric d = false) ∧
      ((∃ x, t.kind = .number x) ↔ startsNumber c = true ∧ Decimal.IsSignedDecimal (c :: run)) ∧
      (startsNumber c = true → t.lexeme.toList = c :: run ∧
        (Decimal.IsSignedDecimal (c :: run) ↔ Decimal.FloatText (c :: run)) ∧
        (¬ Decimal.IsSignedDecimal (c :: run) → t.kind = .word))) ∧
    (∀ t ∈ Token.scan source, ∀ x, t.kind = .number x → x.isNaN = false) ∧
    ∀ forest forest', parse source = .ok forest → parse source = .ok forest' →
      Node.sameAll forest forest' = true := by
  refine ⟨?_, fun t ht x hkind => isNaN_of_mem_scan ht hkind, ?_⟩
  · intro t ht
    obtain ⟨before, c, cs, hsource, -, rfl⟩ := exists_read_of_mem_tokens 0 source.toList [] rfl ht
    have hparts : cs.takeWhile isNumeric ++ cs.dropWhile isNumeric = cs :=
      List.takeWhile_append_dropWhile
    refine ⟨before, c, cs.takeWhile isNumeric, cs.dropWhile isNumeric, ?_, rfl,
      List.all_eq_true.mp List.all_takeWhile, head?_dropWhile, ?_, fun hc => ⟨?_, ?_, ?_⟩⟩
    · rw [List.cons_append, hparts]
      exact hsource
    · constructor
      · rintro ⟨x, hkind⟩
        have hc := Lexeme.startsNumber_of_kind hkind
        exact ⟨hc, (Lexeme.number_iff hc).mp ⟨x, hkind⟩⟩
      · rintro ⟨hc, hdecimal⟩
        exact (Lexeme.number_iff hc).mpr hdecimal
    · exact Lexeme.lexeme_of_startsNumber hc
    · exact (Decimal.floatText_iff (Lexeme.isNumeric_of_run hc)).symm
    · exact Lexeme.word_of_not_decimal hc
  · intro forest forest' h h'
    obtain rfl : forest = forest' := Except.ok.inj (h.symm.trans h')
    exact sameAll_of_parse h

/-- A number without a whole part, a run that is none, and a number in a list. -/
theorem numbers_are_signed_decimals_malformed :
    let source := "1-2 -.5 [ 3. ]"
    let forest := [Node.word "1-2", .number (-0.5), .collection .list [.number 3]]
    ⟨.word, "1-2", 0⟩ ∈ Token.scan source ∧ ¬ Decimal.IsSignedDecimal "1-2".toList ∧
      ⟨.number (-0.5), "-.5", 4⟩ ∈ Token.scan source ∧ (-0.5 : Float).isNaN = false ∧
      parse source = .ok forest ∧ Node.sameAll forest forest = true := by
  intro source forest
  have hscan : Token.scan source =
      [⟨.word, "1-2", 0⟩, ⟨.number (-0.5), "-.5", 4⟩, ⟨.leftBracket, "[", 8⟩,
        ⟨.number 3, "3.", 10⟩, ⟨.rightBracket, "]", 13⟩] := by
    decide +kernel
  have hparse : parse source = .ok forest := by
    rw [parse, hscan]
    rfl
  have hword : ⟨.word, "1-2", 0⟩ ∈ Token.scan source := by simp [hscan]
  have hnumber : ⟨.number (-0.5), "-.5", 4⟩ ∈ Token.scan source := by simp [hscan]
  obtain ⟨htokens, hnan, hsame⟩ := numbers_are_signed_decimals source
  refine ⟨hword, ?_, hnumber, hnan _ hnumber _ rfl, hparse, hsame _ _ hparse hparse⟩
  obtain ⟨before, c, run, after, hsource, hbefore, -, -, hkind, hstart⟩ := htokens _ hword
  obtain rfl : before = [] := Text.eq_nil_of_width hbefore.symm
  have hhead : source.toList.head? = some '1' := by decide
  rw [hsource] at hhead
  obtain rfl : c = '1' := Option.some.inj hhead
  obtain ⟨hlexeme, -, -⟩ := hstart (by decide)
  rw [hlexeme]
  intro hdecimal
  obtain ⟨x, hx⟩ := hkind.mpr ⟨by decide, hdecimal⟩
  exact absurd hx (by simp)

end DualStack
