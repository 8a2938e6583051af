/-
Where the tokens of a source stand in it.

A token carries its offset and its lexeme.  What it spans in the source is not kept,
but it is known while the token is read: `Site` is a token with the characters in
front of it, those it spans and those behind it, and together these are the source.
Offsets count bytes, and a site is made of whole characters, so every token starts
and stops between two characters.

What a token may span depends on its first character, in four ways.  `Site.Faithful`
says so without the scanner: a run goes on for as long as it can, and a text literal
goes to the first quote that no backslash hides.  A backslash hides the character
behind it unless it is hidden itself, which is what `Text.hidesNext` computes from
the left.  The scanner takes a backslash and the character behind it in one go; that
this comes to the same is `splitQuoted_hides`.

The scanner goes on where the last token stopped.  So sites come in order and do not
overlap, and what lies between them has been skipped as separators.
-/
import DualStack.Proofs.Lines

namespace DualStack

/-! ### Hidden quotes -/

namespace Text

/-- Whether the character behind a text is hidden: the text ends in a backslash that is not
hidden itself. -/
def hidesNext (cs : List Char) : Bool :=
  cs.foldl (fun hidden c => c == '\\' && !hidden) false

theorem hidesNext_cons {c : Char} (hc : c ≠ '\\') (cs : List Char) :
    hidesNext (c :: cs) = hidesNext cs := by
  have hplain : (c == '\\') = false := by simpa using hc
  simp [hidesNext, hplain]

theorem hidesNext_backslash (c : Char) (cs : List Char) :
    hidesNext ('\\' :: c :: cs) = hidesNext cs := by
  simp [hidesNext]

/-- Every quote in the text is hidden by a backslash. -/
def QuotesHidden (cs : List Char) : Prop :=
  ∀ front back, cs = front ++ '"' :: back → hidesNext front = true

theorem quotesHidden_nil : QuotesHidden [] := by
  intro front back h
  simp at h

theorem quotesHidden_backslash : QuotesHidden ['\\'] := by
  intro front back h
  cases front with
  | nil => simp at h
  | cons d front => simp at h

theorem QuotesHidden.cons {c : Char} {cs : List Char} (h : QuotesHidden cs) (hc : Plain c) :
    QuotesHidden (c :: cs) := by
  intro front back hsplit
  cases front with
  | nil =>
      simp only [List.nil_append, List.cons.injEq] at hsplit
      exact absurd hsplit.1 hc.1
  | cons d front =>
      simp only [List.cons_append, List.cons.injEq] at hsplit
      obtain ⟨rfl, hsplit⟩ := hsplit
      rw [hidesNext_cons hc.2]
      exact h front back hsplit

theorem QuotesHidden.backslash {cs : List Char} (h : QuotesHidden cs) (c : Char) :
    QuotesHidden ('\\' :: c :: cs) := by
  intro front back hsplit
  match front, hsplit with
  | [], hsplit => simp at hsplit
  | [d], hsplit =>
      simp only [List.cons_append, List.nil_append, List.cons.injEq] at hsplit
      obtain ⟨rfl, -⟩ := hsplit
      rfl
  | d :: e :: front, hsplit =>
      simp only [List.cons_append, List.cons.injEq] at hsplit
      obtain ⟨rfl, rfl, hsplit⟩ := hsplit
      rw [hidesNext_backslash]
      exact h front back hsplit

end Text

/-- **The raw text of a literal goes to the first quote that is not hidden, or to the end of
the source.** -/
theorem splitQuoted_hides (cs : List Char) :
    Text.QuotesHidden (splitQuoted cs).1 ∧
      ((splitQuoted cs).2 = [] ∨
        (splitQuoted cs).2.head? = some '"' ∧ Text.hidesNext (splitQuoted cs).1 = false) := by
  fun_induction splitQuoted cs with
  | case1 => exact ⟨Text.quotesHidden_nil, Or.inl rfl⟩
  | case2 cs => exact ⟨Text.quotesHidden_nil, Or.inr ⟨rfl, rfl⟩⟩
  | case3 c cs body rest hsplit ih =>
      rw [hsplit] at ih
      obtain ⟨hhidden, hend⟩ := ih
      refine ⟨hhidden.backslash c, ?_⟩
      rw [Text.hidesNext_backslash]
      exact hend
  | case4 c cs hquote hslash body rest hsplit ih =>
      rw [hsplit] at ih
      obtain ⟨hhidden, hend⟩ := ih
      by_cases hc : c = '\\'
      · -- A backslash in this case is the last character of the source.
        cases cs with
        | nil =>
            cases hsplit
            rw [hc]
            exact ⟨Text.quotesHidden_backslash, Or.inl rfl⟩
        | cons d cs => exact absurd rfl (hslash d cs hc)
      · refine ⟨hhidden.cons ⟨hquote, hc⟩, ?_⟩
        rw [Text.hidesNext_cons hc]
        exact hend

/-! ### The four shapes of tokens -/

namespace Lexeme

/-- The first character of a token decides how it is read. -/
theorem read_cases (c : Char) (cs : List Char) :
    (∃ kind, TokenKind.ofPunctuation? c = some kind ∧ read c cs = ⟨kind, [c], [c], cs⟩) ∨
    (c = '"' ∧ read c cs = quoted cs) ∨
    (startsNumber c = true ∧ read c cs = numeric c cs) ∨
    (Spells.StartsWord c ∧ read c cs = word c cs) := by
  cases hpunctuation : TokenKind.ofPunctuation? c with
  | some kind =>
      refine Or.inl ⟨kind, rfl, ?_⟩
      unfold read
      rw [hpunctuation]
  | none =>
      refine Or.inr ?_
      by_cases hquote : c = '"'
      · subst hquote
        exact Or.inl ⟨rfl, rfl⟩
      refine Or.inr ?_
      by_cases hnumber : startsNumber c = true
      · exact Or.inl ⟨hnumber, Spells.read_numeric hnumber cs⟩
      · have hstart : Spells.StartsWord c := ⟨hpunctuation, hquote, by simpa using hnumber⟩
        exact Or.inr ⟨hstart, Spells.read_word hstart cs⟩

/-- The characters of a run that starts like a number. -/
theorem isNumeric_of_run {c : Char} {cs : List Char} (hc : startsNumber c = true) :
    ∀ d ∈ c :: cs.takeWhile isNumeric, isNumeric d = true := by
  have hstart : isNumeric c = true := by
    simp only [startsNumber, Bool.or_eq_true] at hc
    simp only [isNumeric, Bool.or_eq_true]
    exact hc.imp_left Or.inl
  exact List.forall_mem_cons.mpr ⟨hstart, List.all_eq_true.mp List.all_takeWhile⟩

end Lexeme

/-- Punctuation is no literal. -/
theorem TokenKind.ofPunctuation?_not_literal {c : Char} {kind : TokenKind}
    (h : TokenKind.ofPunctuation? c = some kind) : kind ≠ .text ∧ ∀ x, kind ≠ .number x := by
  unfold TokenKind.ofPunctuation? at h
  split_ifs at h
  all_goals
    cases h
    simp

/-- Words and keywords are no literals. -/
theorem TokenKind.ofWord_not_literal (lexeme : String) :
    TokenKind.ofWord lexeme ≠ .text ∧ ∀ x, TokenKind.ofWord lexeme ≠ .number x := by
  unfold TokenKind.ofWord
  split_ifs <;> simp

theorem head?_dropWhile {p : Char → Bool} {cs : List Char} :
    ∀ c ∈ (cs.dropWhile p).head?, p c = false := by
  intro c hc
  have hhead := List.head?_dropWhile_not p cs
  rw [hc] at hhead
  exact hhead

/-! ### Places in a text -/

theorem Text.eq_nil_of_width {cs : List Char} (h : width cs = 0) : cs = [] := by
  cases cs with
  | nil => rfl
  | cons c cs =>
      have hpos := c.utf8Size_pos
      rw [width_cons] at h
      omega

/-- Two beginnings of a text that are equally wide are the same. -/
theorem Text.eq_of_width {front back front' back' : List Char}
    (h : front ++ back = front' ++ back') (hwidth : width front = width front') :
    front = front' := by
  rcases List.append_eq_append_iff.mp h with ⟨cs, rfl, -⟩ | ⟨cs, rfl, -⟩
  · rw [width_append] at hwidth
    have hnone : cs = [] := eq_nil_of_width (by omega)
    rw [hnone, List.append_nil]
  · rw [width_append] at hwidth
    have hnone : cs = [] := eq_nil_of_width (by omega)
    rw [hnone, List.append_nil]

/-! ### Sites -/

/-- A token where it stands: the characters in front of it, those it spans and those behind. -/
structure Site where
  token : Token
  before : List Char
  span : List Char
  after : List Char

namespace Site

/-- The byte at which the token starts. -/
def start (s : Site) : Nat :=
  Text.width s.before

/-- The byte at which the token has stopped. -/
def stop (s : Site) : Nat :=
  Text.width (s.before ++ s.span)

/-- The token is what the characters it spans say, and it spans as many as it may. -/
structure Faithful (s : Site) : Prop where
  nonempty : s.span ≠ []
  /-- Text literals are the tokens that start with a quote. -/
  text_iff : s.token.kind = .text ↔ s.span.head? = some '"'
  /-- Any other token has as its lexeme what it spans. -/
  verbatim : s.token.kind ≠ .text → s.token.lexeme.toList = s.span
  /-- A text literal has as its lexeme what follows the quote: up to the first quote that is not
  hidden, which the token still spans, or else up to the end of the source. -/
  literal : s.token.kind = .text → Text.QuotesHidden s.token.lexeme.toList ∧
    (s.span = '"' :: (s.token.lexeme.toList ++ ['"']) ∧
        Text.hidesNext s.token.lexeme.toList = false ∨
      s.span = '"' :: s.token.lexeme.toList ∧ s.after = [])
  /-- A word goes on to the next separator. -/
  word : ∀ c ∈ s.span.head?, Spells.StartsWord c →
    (∀ d ∈ s.span, Text.isSeparator d = false) ∧ ∀ d ∈ s.after.head?, Text.isSeparator d = true
  /-- A run of digits, points and minus signs goes on for as long as there are any. -/
  numeric : ∀ c ∈ s.span.head?, startsNumber c = true →
    (∀ d ∈ s.span, isNumeric d = true) ∧ ∀ d ∈ s.after.head?, isNumeric d = false
  /-- Punctuation stands for itself. -/
  punctuation : ∀ c ∈ s.span.head?, TokenKind.ofPunctuation? c ≠ none → s.span = [c]

section Shapes

variable {c : Char} {cs before after : List Char} {kind : TokenKind} {offset : Nat}

theorem faithful_punctuation (hc : TokenKind.ofPunctuation? c = some kind) :
    Faithful ⟨⟨kind, String.ofList [c], offset⟩, before, [c], after⟩ := by
  have hkind := (TokenKind.ofPunctuation?_not_literal hc).1
  have hquote : c ≠ '"' := by
    intro heq
    have hnone : TokenKind.ofPunctuation? c = none := by rw [heq]; decide
    rw [hnone] at hc
    exact absurd hc (by simp)
  refine ⟨by simp, by simp [hkind, hquote], by simp, ?_, ?_, ?_, ?_⟩
  · intro htext
    exact absurd htext hkind
  · intro d hd hstart
    obtain rfl : c = d := by simpa using hd
    exact absurd hstart.punctuation (by simp [hc])
  · intro d hd hstart
    obtain rfl : c = d := by simpa using hd
    exact absurd (Spells.of_startsNumber hstart).1 (by simp [hc])
  · intro d hd _
    obtain rfl : c = d := by simpa using hd
    rfl

theorem faithful_quoted : Faithful ⟨⟨(Lexeme.quoted cs).kind,
    String.ofList (Lexeme.quoted cs).text, offset⟩, before, (Lexeme.quoted cs).span,
    (Lexeme.quoted cs).rest⟩ := by
  obtain ⟨hhidden, hend⟩ := splitQuoted_hides cs
  have hspan : (Lexeme.quoted cs).span =
      '"' :: ((splitQuoted cs).1 ++ (splitQuoted cs).2.take 1) := rfl
  have hhead : ∀ d ∈ (Lexeme.quoted cs).span.head?, d = '"' := by
    intro d hd
    rw [hspan] at hd
    simpa using hd.symm
  refine ⟨by simp [hspan], by simp [Lexeme.quoted], ?_, ?_, ?_, ?_, ?_⟩
  · intro hkind
    exact absurd rfl hkind
  · intro _
    have htext : (String.ofList (Lexeme.quoted cs).text).toList = (splitQuoted cs).1 :=
      String.toList_ofList
    rw [htext, hspan]
    refine ⟨hhidden, ?_⟩
    rcases hend with hopen | ⟨hclose, hfree⟩
    · refine Or.inr ⟨by simp [hopen], ?_⟩
      show (splitQuoted cs).2.drop 1 = []
      rw [hopen, List.drop_nil]
    · refine Or.inl ⟨?_, hfree⟩
      rw [List.take_one, hclose]
      rfl
  · intro d hd hstart
    exact absurd (hhead d hd) hstart.quote
  · intro d hd hstart
    exact absurd (hhead d hd) (Spells.of_startsNumber hstart).2.1
  · intro d hd hpunctuation
    rw [hhead d hd] at hpunctuation
    exact absurd rfl hpunctuation

theorem faithful_numeric (hc : startsNumber c = true) : Faithful ⟨⟨(Lexeme.numeric c cs).kind,
    String.ofList (Lexeme.numeric c cs).text, offset⟩, before, (Lexeme.numeric c cs).span,
    (Lexeme.numeric c cs).rest⟩ := by
  obtain ⟨hpunctuation, hquote, -⟩ := Spells.of_startsNumber hc
  have hspan : (Lexeme.numeric c cs).span = c :: cs.takeWhile isNumeric := rfl
  have hkind : (Lexeme.numeric c cs).kind ≠ .text := by
    unfold Lexeme.numeric
    dsimp only
    split <;> simp
  have hhead : ∀ d ∈ (Lexeme.numeric c cs).span.head?, c = d := by
    intro d hd
    rw [hspan] at hd
    simpa using hd
  refine ⟨by simp [hspan], by simp [hspan, hkind, hquote], ?_, ?_, ?_, ?_, ?_⟩
  · intro _
    exact String.toList_ofList
  · intro htext
    exact absurd htext hkind
  · intro d hd hstart
    obtain rfl := hhead d hd
    exact absurd hc (by simp [hstart.number])
  · intro d hd _
    rw [hspan]
    exact ⟨Lexeme.isNumeric_of_run hc, head?_dropWhile⟩
  · intro d hd hsome
    obtain rfl := hhead d hd
    exact absurd hpunctuation hsome

theorem faithful_word (hc : Text.isSeparator c = false) (hstart : Spells.StartsWord c) :
    Faithful ⟨⟨(Lexeme.word c cs).kind, String.ofList (Lexeme.word c cs).text, offset⟩, before,
      (Lexeme.word c cs).span, (Lexeme.word c cs).rest⟩ := by
  have hspan : (Lexeme.word c cs).span = c :: cs.takeWhile (!Text.isSeparator ·) := rfl
  have hkind : (Lexeme.word c cs).kind ≠ .text := (TokenKind.ofWord_not_literal _).1
  have hhead : ∀ d ∈ (Lexeme.word c cs).span.head?, c = d := by
    intro d hd
    rw [hspan] at hd
    simpa using hd
  refine ⟨by simp [hspan], by simp [hspan, hkind, hstart.quote], ?_, ?_, ?_, ?_, ?_⟩
  · intro _
    exact String.toList_ofList
  · intro htext
    exact absurd htext hkind
  · intro d hd _
    refine ⟨?_, ?_⟩
    · rw [hspan]
      refine List.forall_mem_cons.mpr ⟨hc, fun d hd => ?_⟩
      simpa using List.all_eq_true.mp List.all_takeWhile d hd
    · intro d hd
      simpa using head?_dropWhile d hd
  · intro d hd hnumber
    obtain rfl := hhead d hd
    exact absurd hnumber (by simp [hstart.number])
  · intro d hd hsome
    obtain rfl := hhead d hd
    exact absurd hstart.punctuation hsome

end Shapes

/-- The site at which a token is read that starts with `c`. -/
def ofRead (before : List Char) (c : Char) (cs : List Char) : Site where
  token := ⟨(Lexeme.read c cs).kind, String.ofList (Lexeme.read c cs).text, Text.width before⟩
  before := before
  span := (Lexeme.read c cs).span
  after := (Lexeme.read c cs).rest

/-- **What the scanner reads is faithful**, in each of the four shapes. -/
theorem faithful_ofRead (before : List Char) {c : Char} (hc : Text.isSeparator c = false)
    (cs : List Char) : (ofRead before c cs).Faithful := by
  unfold ofRead
  rcases Lexeme.read_cases c cs with ⟨kind, hkind, hread⟩ | ⟨-, hread⟩ | ⟨hstart, hread⟩ |
    ⟨hstart, hread⟩
  · rw [hread]
    exact faithful_punctuation hkind
  · rw [hread]
    exact faithful_quoted
  · rw [hread]
    exact faithful_numeric hstart
  · rw [hread]
    exact faithful_word hc hstart

/-- The token spans the character at a byte. -/
def Covers (s : Site) (place : Nat) : Prop :=
  s.start ≤ place ∧ place < s.stop

theorem start_lt_stop {s : Site} (h : s.span ≠ []) : s.start < s.stop := by
  unfold start stop
  obtain ⟨c, cs, hspan⟩ := List.exists_cons_of_ne_nil h
  have hpos := c.utf8Size_pos
  rw [Text.width_append, hspan, Text.width_cons]
  omega

/-! ### The sites of a source -/

/-- The sites of the tokens of `cs`, of which nothing but separators is left out.  `before` is
what stands in front of `cs`. -/
structure Tile (before cs : List Char) (sites : List Site) : Prop where
  tokens : sites.map token = Cursor.tokens ⟨Text.width before, cs⟩
  whole : ∀ s ∈ sites, s.before ++ s.span ++ s.after = before ++ cs
  offset : ∀ s ∈ sites, s.token.offset = s.start
  faithful : ∀ s ∈ sites, s.Faithful
  later : ∀ s ∈ sites, Text.width before ≤ s.start
  ordered : sites.Pairwise fun s t => s.stop ≤ t.start
  covered : ∀ front c back, cs = front ++ c :: back → Text.isSeparator c = false →
    ∃ s ∈ sites, s.Covers (Text.width (before ++ front))

namespace Tile

variable {before cs : List Char} {c : Char} {sites : List Site}

theorem nil (before : List Char) : Tile before [] [] := by
  refine ⟨?_, by simp, by simp, by simp, by simp, List.Pairwise.nil, ?_⟩
  · rw [Cursor.tokens_nil, List.map_nil]
  · intro front c back h
    simp at h

theorem separator (hc : Text.isSeparator c = true) (h : Tile (before ++ [c]) cs sites) :
    Tile before (c :: cs) sites := by
  refine ⟨?_, ?_, h.offset, h.faithful, ?_, h.ordered, ?_⟩
  · rw [h.tokens, Cursor.tokens_separator hc, Text.width_append]
  · intro s hs
    rw [h.whole s hs, List.append_assoc, List.singleton_append]
  · intro s hs
    have hlater := h.later s hs
    rw [Text.width_append] at hlater
    omega
  · intro front d back hsplit hd
    cases front with
    | nil =>
        obtain ⟨rfl, -⟩ := List.cons.inj hsplit
        exact absurd hc (by simp [hd])
    | cons e front =>
        obtain ⟨rfl, hrest⟩ := List.cons.inj hsplit
        have hcovered := h.covered front d back hrest hd
        rwa [List.append_assoc, List.singleton_append] at hcovered

/-- A character of `span ++ rest` is one of the span, or is found again in the rest. -/
theorem covers_or_rest {span rest front back : List Char} {d : Char}
    (h : span ++ rest = front ++ d :: back) :
    Text.width front < Text.width span ∨ ∃ front', front = span ++ front' ∧
      rest = front' ++ d :: back := by
  rcases List.append_eq_append_iff.mp h with ⟨front', hfront, hrest⟩ | ⟨tail, hspan, htail⟩
  · exact Or.inr ⟨front', hfront, hrest⟩
  · cases tail with
    | nil =>
        rw [List.append_nil] at hspan
        exact Or.inr ⟨[], by rw [hspan, List.append_nil], htail.symm⟩
    | cons e tail =>
        have hpos := e.utf8Size_pos
        refine Or.inl ?_
        rw [hspan, Text.width_append, Text.width_cons]
        omega

theorem token (hc : Text.isSeparator c = false)
    (h : Tile (before ++ (Lexeme.read c cs).span) (Lexeme.read c cs).rest sites) :
    Tile before (c :: cs) (ofRead before c cs :: sites) := by
  have hwhole := Lexeme.split_eq c cs
  refine ⟨?_, ?_, ?_, ?_, ?_, ?_, ?_⟩
  · rw [List.map_cons, h.tokens, Cursor.tokens_cons hc, Text.width_append]
    rfl
  · refine List.forall_mem_cons.mpr ⟨?_, ?_⟩
    · show before ++ (Lexeme.read c cs).span ++ (Lexeme.read c cs).rest = before ++ c :: cs
      rw [List.append_assoc, hwhole]
    · intro s hs
      rw [h.whole s hs, List.append_assoc, hwhole]
  · exact List.forall_mem_cons.mpr ⟨rfl, h.offset⟩
  · exact List.forall_mem_cons.mpr ⟨faithful_ofRead before hc cs, h.faithful⟩
  · refine List.forall_mem_cons.mpr ⟨Nat.le_refl _, ?_⟩
    intro s hs
    have hlater := h.later s hs
    rw [Text.width_append] at hlater
    omega
  · exact List.pairwise_cons.mpr ⟨h.later, h.ordered⟩
  · intro front d back hsplit hd
    rcases covers_or_rest (hwhole.trans hsplit) with hin | ⟨front', rfl, hrest⟩
    · refine ⟨ofRead before c cs, List.mem_cons_self, ?_⟩
      unfold Covers start stop ofRead
      dsimp only
      rw [Text.width_append, Text.width_append]
      omega
    · obtain ⟨s, hs, hcovers⟩ := h.covered front' d back hrest hd
      rw [List.append_assoc] at hcovers
      exact ⟨s, List.mem_cons_of_mem _ hs, hcovers⟩

/-- **Every text is tiled by the sites of its tokens.**  The induction is the scanner's. -/
theorem exists_tile (before cs : List Char) : ∃ sites, Tile before cs sites := by
  have hall : ∀ offset cs before, Text.width before = offset → ∃ sites, Tile before cs sites := by
    refine Cursor.scan_induction ?_ ?_ ?_
    · intro offset before _
      exact ⟨[], nil before⟩
    · intro offset c cs hc ih before hbefore
      obtain ⟨sites, htile⟩ := ih (before ++ [c]) (by rw [Text.width_append, hbefore])
      exact ⟨sites, htile.separator hc⟩
    · intro offset c cs hc ih before hbefore
      obtain ⟨sites, htile⟩ := ih (before ++ (Lexeme.read c cs).span)
        (by rw [Text.width_append, hbefore])
      exact ⟨ofRead before c cs :: sites, htile.token hc⟩
  exact hall _ cs before rfl

end Tile

end Site

theorem Text.isSeparator_iff (c : Char) :
    isSeparator c = true ↔ c = ' ' ∨ c = '\t' ∨ c = '\n' ∨ c = '\r' := by
  simp [isSeparator, or_assoc]

/-- **The scanner loses nothing and invents nothing.**  The tokens of a source have sites in it,
one after the other and none empty, at which each is what it spans; and what no token spans is a
blank, a tab, a line feed or a carriage return. -/
theorem scan_loses_and_invents_nothing (source : String) :
    ∃ sites : List Site, sites.map Site.token = Token.scan source ∧
      (∀ s ∈ sites, s.before ++ s.span ++ s.after = source.toList ∧ s.token.offset = s.start ∧
        s.start < s.stop ∧ s.Faithful) ∧
      (sites.Pairwise fun s t => s.stop ≤ t.start) ∧
      ∀ front c back, source.toList = front ++ c :: back →
        (∃ s ∈ sites, s.Covers (Text.width front)) ∨ c = ' ' ∨ c = '\t' ∨ c = '\n' ∨ c = '\r' := by
  obtain ⟨sites, htile⟩ := Site.Tile.exists_tile [] source.toList
  refine ⟨sites, htile.tokens, ?_, htile.ordered, ?_⟩
  · intro s hs
    have hfaithful := htile.faithful s hs
    exact ⟨htile.whole s hs, htile.offset s hs, Site.start_lt_stop hfaithful.nonempty, hfaithful⟩
  · intro front c back hsplit
    by_cases hc : Text.isSeparator c = true
    · exact Or.inr ((Text.isSeparator_iff c).mp hc)
    · exact Or.inl (htile.covered front c back hsplit (by simpa using hc))

end DualStack
