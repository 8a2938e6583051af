/-
Scanning: from characters to tokens.

The first character of a token decides its shape.  Six punctuation characters are
tokens on their own; a quote opens a text literal that runs to the next quote not
hidden by a backslash, or to the end of the source; a digit or a minus sign
starts the longest run of digits, points and minus signs; anything else starts
the longest run of characters that are not separators.  Whether a run of the
third shape is a numeral, and one of the fourth a keyword, is known only once the
whole run has been read.

Every shape consumes at least its first character, so what remains is shorter and
scanning ends.  `Lexeme.split_eq` says that reading a token loses nothing: the
characters it spans and those left over make up the input.
-/
import DualStack.Text.Blank
import DualStack.Text.Bytes
import DualStack.Decimal.Numeral
import DualStack.Token

namespace DualStack

/-- The token at the front of a run of characters. -/
structure Lexeme where
  kind : TokenKind
  /-- The characters of the lexeme. -/
  text : List Char
  /-- The characters the token spans in the source. -/
  span : List Char
  /-- The characters after the token. -/
  rest : List Char

/-- Split off the raw text of a text literal; the rest starts with the closing quote, or is
empty if there is none. -/
def splitQuoted : List Char → List Char × List Char
  | [] => ([], [])
  | '"' :: cs => ([], '"' :: cs)
  | '\\' :: c :: cs =>
    let (body, rest) := splitQuoted cs
    ('\\' :: c :: body, rest)
  | c :: cs =>
    let (body, rest) := splitQuoted cs
    (c :: body, rest)

/-- The characters a numeral may be made of. -/
def isNumeric (c : Char) : Bool :=
  Decimal.isDigit c || c == '.' || c == '-'

/-- Whether a character starts a run of numeric characters. -/
def startsNumber (c : Char) : Bool :=
  Decimal.isDigit c || c == '-'

namespace Lexeme

/-- A text literal whose opening quote has been read. -/
def quoted (cs : List Char) : Lexeme :=
  let (body, rest) := splitQuoted cs
  ⟨.text, body, '"' :: (body ++ rest.take 1), rest.drop 1⟩

/-- A run of numeric characters: a numeral if it spells one, a word otherwise. -/
def numeric (c : Char) (cs : List Char) : Lexeme :=
  let run := c :: cs.takeWhile isNumeric
  let kind := match Decimal.read? run with
    | some x => .number x
    | none => .word
  ⟨kind, run, run, cs.dropWhile isNumeric⟩

/-- A run of characters up to the next separator: a keyword or a word. -/
def word (c : Char) (cs : List Char) : Lexeme :=
  let run := c :: cs.takeWhile (!Text.isSeparator ·)
  ⟨.ofWord (String.ofList run), run, run, cs.dropWhile (!Text.isSeparator ·)⟩

/-- The token that starts with the character `c`, followed by `cs`. -/
def read (c : Char) (cs : List Char) : Lexeme :=
  match TokenKind.ofPunctuation? c with
  | some kind => ⟨kind, [c], [c], cs⟩
  | none =>
    if c = '"' then quoted cs
    else if startsNumber c then numeric c cs
    else word c cs

end Lexeme

theorem splitQuoted_append (cs : List Char) : (splitQuoted cs).1 ++ (splitQuoted cs).2 = cs := by
  fun_induction splitQuoted cs <;> simp_all

namespace Lexeme

/-- Reading a token loses nothing. -/
theorem split_eq (c : Char) (cs : List Char) : (read c cs).span ++ (read c cs).rest = c :: cs := by
  unfold read
  split
  · rfl
  · split
    · subst_vars
      simp only [quoted, List.cons_append, List.append_assoc, List.take_append_drop,
        splitQuoted_append]
    · split
      · simp [numeric]
      · simp [word]

/-- A token spans at least one character. -/
theorem span_ne_nil (c : Char) (cs : List Char) : (read c cs).span ≠ [] := by
  unfold read
  split
  · simp
  · split
    · simp [quoted]
    · split
      · simp [numeric]
      · simp [word]

/-- What follows a token is shorter than what it was read from. -/
theorem length_rest_lt (c : Char) (cs : List Char) :
    (read c cs).rest.length < (c :: cs).length := by
  have whole := congrArg List.length (split_eq c cs)
  have some := List.length_pos_iff.mpr (span_ne_nil c cs)
  simp only [List.length_append] at whole
  omega

end Lexeme

/-- A place in a source: a byte offset and the characters from there on. -/
structure Cursor where
  offset : Nat
  rest : List Char

namespace Cursor

/-- The start of a source. -/
def ofSource (source : String) : Cursor :=
  ⟨0, source.toList⟩

/-- The place after the separators that stand at a cursor. -/
def skip (k : Cursor) : Cursor :=
  ⟨k.offset + Text.width (k.rest.takeWhile Text.isSeparator), k.rest.dropWhile Text.isSeparator⟩

/-- The next token and the place after it; at the end of the source, the end token. -/
def next (k : Cursor) : Token × Cursor :=
  match k.skip with
  | ⟨offset, []⟩ => (Token.endOf offset, ⟨offset, []⟩)
  | ⟨offset, c :: cs⟩ =>
    let lexeme := Lexeme.read c cs
    (⟨lexeme.kind, String.ofList lexeme.text, offset⟩,
      ⟨offset + Text.width lexeme.span, lexeme.rest⟩)

theorem length_skip_le (k : Cursor) : k.skip.rest.length ≤ k.rest.length :=
  (List.dropWhile_suffix _).length_le

/-- Unless the source is exhausted, the next token shortens what is left. -/
theorem length_next_lt {k : Cursor} (more : k.skip.rest ≠ []) :
    k.next.2.rest.length < k.rest.length := by
  have bound := k.length_skip_le
  unfold next
  split
  · rename_i h
    rw [h] at more
    exact absurd rfl more
  · rename_i h
    rw [h] at bound
    exact Nat.lt_of_lt_of_le (Lexeme.length_rest_lt _ _) bound

/-- The tokens from a cursor to the end of the source. -/
def tokens (k : Cursor) : List Token :=
  if _exhausted : k.skip.rest = [] then []
  else k.next.1 :: k.next.2.tokens
termination_by k.rest.length
decreasing_by exact length_next_lt _exhausted

end Cursor

/-- The tokens of a source, without the end token. -/
def Token.scan (source : String) : List Token :=
  (Cursor.ofSource source).tokens

end DualStack
