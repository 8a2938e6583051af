/-
Writing a text as a literal, and reading a literal as a text.

Two pieces of code know about escapes.  The scanner passes over a backslash and the
character behind it, only to find the closing quote; the parser resolves escapes
later, in what the scanner has left between the quotes.  They agree.  A text with a
backslash in front of each of its quotes and backslashes is passed over as a whole
and resolved to itself, whatever follows the closing quote, so every text can be
written.  And the scanner never ends a literal at a quote that a backslash hides, so
the raw text of a closed literal never ends in a backslash that has nothing to hide:
`resolve?`, which refuses such a backslash, resolves it like `unescape`.
-/
import DualStack.Proofs.Lines
import DualStack.Proofs.Spans

namespace DualStack

namespace Text

/-! ### Writing a text -/

theorem escape_cons (c : Char) (cs : List Char) :
    escape (c :: cs) = (if c = '\\' ∨ c = '"' then ['\\', c] else [c]) ++ escape cs :=
  List.flatMap_cons

/-- An escaped text ends at the quote behind it. -/
theorem splitQuoted_escape (cs rest : List Char) :
    splitQuoted (escape cs ++ '"' :: rest) = (escape cs, '"' :: rest) := by
  induction cs with
  | nil => rfl
  | cons c cs ih =>
      rw [escape_cons, List.append_assoc]
      by_cases hc : c = '\\' ∨ c = '"'
      · rw [if_pos hc, List.cons_append, List.singleton_append, splitQuoted_backslash, ih]
        rfl
      · rw [not_or] at hc
        rw [if_neg (by simp [hc]), List.singleton_append, splitQuoted_cons ⟨hc.2, hc.1⟩, ih]
        rfl

/-- An escaped text resolves to the text. -/
theorem unescape_escape (cs : List Char) : unescape (escape cs) = cs := by
  induction cs with
  | nil => rfl
  | cons c cs ih =>
      rw [escape_cons]
      by_cases hc : c = '\\' ∨ c = '"'
      · rw [if_pos hc, List.cons_append, List.singleton_append]
        rcases hc with rfl | rfl
        · rw [unescape, ih]
        · rw [unescape, ih]
      · rw [not_or] at hc
        rw [if_neg (by simp [hc]), List.singleton_append, unescape_cons hc.1, ih]

/-! ### Resolving a raw text -/

/-- Resolve the escapes of a raw text, but refuse a backslash that nothing follows. -/
def resolve? : List Char → Option (List Char)
  | [] => some []
  | ['\\'] => none
  | '\\' :: c :: cs => (resolve? cs).map (unescape ['\\', c] ++ ·)
  | c :: cs => (resolve? cs).map (c :: ·)

theorem unescape_backslash (c : Char) (cs : List Char) :
    unescape ('\\' :: c :: cs) = unescape ['\\', c] ++ unescape cs := by
  by_cases hc : ['\\', c] ∈ escapes
  · simp only [escapes, List.mem_cons, List.cons.injEq, true_and, and_true, List.not_mem_nil,
      or_false] at hc
    rcases hc with rfl | rfl | rfl | rfl | rfl <;> rfl
  · rw [unescape_other hc, unescape_other hc]
    rfl

/-- **A raw text is refused if and only if its last backslash has nothing to hide**; any other is
resolved as it always is. -/
theorem resolve?_eq (cs : List Char) :
    resolve? cs = if hidesNext cs then none else some (unescape cs) := by
  fun_induction resolve? cs with
  | case1 => rfl
  | case2 => rfl
  | case3 c cs ih =>
      rw [ih, hidesNext_backslash, unescape_backslash c cs]
      cases hidesNext cs <;> rfl
  | case4 c cs hlone hpair ih =>
      have hc : c ≠ '\\' := by
        intro hc
        cases cs with
        | nil => exact hlone hc rfl
        | cons d cs => exact hpair d cs hc rfl
      rw [ih, hidesNext_cons hc, unescape_cons hc]
      cases hidesNext cs <;> rfl

end Text

/-! ### Literals in a source -/

/-- A text as the literal that stands for it. -/
def Text.literal (text : String) : String :=
  "\"" ++ String.ofList (Text.escape text.toList) ++ "\""

theorem Text.toList_literal (text : String) :
    (Text.literal text).toList = '"' :: (Text.escape text.toList ++ ['"']) := by
  simp [Text.literal]

theorem Lexeme.read_escape (cs rest : List Char) :
    Lexeme.read '"' (Text.escape cs ++ '"' :: rest) =
      ⟨.text, Text.escape cs, '"' :: (Text.escape cs ++ ['"']), rest⟩ := by
  show Lexeme.quoted _ = _
  unfold Lexeme.quoted
  rw [Text.splitQuoted_escape]
  rfl

/-- The tokens of a literal and of what follows it. -/
theorem scan_literal (text rest : String) :
    Token.scan (Text.literal text ++ rest) =
      ⟨.text, String.ofList (Text.escape text.toList), 0⟩ ::
        (Token.scan rest).map (Token.shift (Text.bytes (Text.literal text)).length) := by
  have hsource : (Text.literal text ++ rest).toList =
      '"' :: (Text.escape text.toList ++ '"' :: rest.toList) := by
    rw [String.toList_append, Text.toList_literal]
    simp
  unfold Token.scan Cursor.ofSource
  rw [hsource, Cursor.tokens_cons (by decide), Lexeme.read_escape, ← Cursor.tokens_shift,
    Text.length_bytes, Text.toList_literal]

/-- The forest of a literal and of what follows it. -/
theorem parse_literal (text rest : String) :
    parse (Text.literal text ++ rest) = ((parse rest).map (.text text :: ·)).mapError
      (ParseError.shift (Text.bytes (Text.literal text)).length) := by
  let t : Token := ⟨.text, String.ofList (Text.escape text.toList), 0⟩
  have hresolved : String.ofList (Text.unescape t.lexeme.toList) = text := by
    rw [String.toList_ofList, Text.unescape_escape, String.ofList_toList]
  have hitems : Items [t] [.text text] := by
    have hitem : Item [t] (.text (String.ofList (Text.unescape t.lexeme.toList))) := .text rfl
    rw [hresolved] at hitem
    exact .single hitem
  unfold parse
  rw [scan_literal]
  exact parseTokens_append _ (by simp) (parseTokens_of_items hitems)

/-- The raw text of a literal whose closing quote is there hides nothing behind it. -/
theorem hidesNext_of_closed {source : String} {t : Token} (ht : t ∈ Token.scan source)
    (hkind : t.kind = .text) {front back : List Char}
    (hsource : source.toList = front ++ '"' :: (t.lexeme.toList ++ '"' :: back))
    (hoffset : Text.width front = t.offset) : Text.hidesNext t.lexeme.toList = false := by
  obtain ⟨sites, htile⟩ := Site.Tile.exists_tile [] source.toList
  have hmem : t ∈ sites.map Site.token := by
    rw [htile.tokens]
    exact ht
  obtain ⟨s, hs, rfl⟩ := List.mem_map.mp hmem
  have hwhole := (htile.whole s hs).trans hsource
  rw [List.append_assoc] at hwhole
  have hfront : s.before = front :=
    Text.eq_of_width hwhole ((htile.offset s hs).symm.trans hoffset.symm)
  rw [hfront] at hwhole
  have hspan := List.append_cancel_left hwhole
  rcases ((htile.faithful s hs).literal hkind).2 with ⟨-, hfree⟩ | ⟨hopen, hafter⟩
  · exact hfree
  · -- A literal that is not closed goes to the end of the source, and no quote is left.
    rw [hopen, hafter, List.append_nil] at hspan
    simp at hspan

/--
**Every text can be written as a literal, and scanner and parser agree on escapes.**

A text between quotes, with a backslash in front of each of its own quotes and
backslashes, is one text literal in front of any other source: the tokens of that
source follow, moved by the bytes of the literal, and the forest starts with the
text itself.  And whatever the source, a literal with a closing quote resolves
without meeting a backslash that nothing follows.
-/
theorem text_literals_agree :
    (∀ text rest : String,
      let width := (Text.bytes (Text.literal text)).length
      Token.scan (Text.literal text ++ rest) =
        ⟨.text, String.ofList (Text.escape text.toList), 0⟩ ::
          (Token.scan rest).map (Token.shift width) ∧
      parse (Text.literal text ++ rest) =
        ((parse rest).map (.text text :: ·)).mapError (ParseError.shift width)) ∧
    ∀ (source : String) (t : Token) (front back : List Char), t ∈ Token.scan source →
      t.kind = .text → Text.width front = t.offset →
      source.toList = front ++ '"' :: (t.lexeme.toList ++ '"' :: back) →
      Text.resolve? t.lexeme.toList = some (Text.unescape t.lexeme.toList) := by
  refine ⟨?_, ?_⟩
  · intro text rest width
    exact ⟨scan_literal text rest, parse_literal text rest⟩
  · intro source t front back ht hkind hoffset hsource
    rw [Text.resolve?_eq, hidesNext_of_closed ht hkind hsource hoffset]
    rfl

/-- A backslash before the closing quote, which another one hides, and text right behind it; then
the same raw text in a source of its own. -/
theorem text_literals_agree_backslash :
    let text := "a\\"
    let source := "1 \"a\\\\\"b"
    Text.literal text = "\"a\\\\\"" ∧
    Token.scan (Text.literal text ++ "b") = [⟨.text, "a\\\\", 0⟩, ⟨.word, "b", 5⟩] ∧
    ⟨.text, "a\\\\", 2⟩ ∈ Token.scan source ∧
    Text.resolve? ("a\\\\").toList = some text.toList := by
  intro text source
  have hscan := ((text_literals_agree.1 text "b").1)
  have hmem : ⟨.text, "a\\\\", 2⟩ ∈ Token.scan source := by decide +kernel
  have hresolve := text_literals_agree.2 source _ ['1', ' '] ['b'] hmem rfl (by decide) (by decide)
  exact ⟨by decide +kernel, hscan.trans (by decide +kernel), hmem,
    hresolve.trans (by decide +kernel)⟩

end DualStack
