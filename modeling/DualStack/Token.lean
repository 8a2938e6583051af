/-
Tokens: the words of a source.

A source is a sequence of tokens separated by blanks.  A token carries its kind,
its lexeme and the byte offset where it starts; errors of structure are reported
at such an offset.  The lexeme is the text of the token itself, except for a text
literal, where it is the raw text between the quotes with its escapes unresolved.
-/

namespace DualStack

/-- What a token is. -/
inductive TokenKind where
  /-- Any run of characters that is not a keyword. -/
  | word
  /-- A numeral, with the number it denotes. -/
  | number (value : Float)
  /-- A text literal. -/
  | text
  /-- Opens a word definition, `:`. -/
  | colon
  /-- Closes a word definition, `;`. -/
  | semicolon
  /-- Opens a list literal, `[`. -/
  | leftBracket
  /-- Closes a list literal, `]`. -/
  | rightBracket
  /-- Opens a vector literal, `{`. -/
  | leftBrace
  /-- Closes a vector literal, `}`. -/
  | rightBrace
  /-- Declares the variable named next, `var`. -/
  | varKeyword
  /-- Opens a conditional, `if`. -/
  | ifKeyword
  /-- Starts the second branch of a conditional, `else`. -/
  | elseKeyword
  /-- Closes a conditional, `then`. -/
  | thenKeyword
  /-- Opens a loop, `for`. -/
  | forKeyword
  /-- Closes a loop, `end`. -/
  | endKeyword
  /-- The end of the source. -/
  | eof
deriving DecidableEq

/-- A token of a source. -/
structure Token where
  kind : TokenKind
  /-- The text of the token; for a text literal the raw text between its quotes. -/
  lexeme : String
  /-- The byte offset of the first character of the token. -/
  offset : Nat
deriving DecidableEq

namespace TokenKind

/-- The kind of a run of characters that is neither punctuation nor a literal. -/
def ofWord (lexeme : String) : TokenKind :=
  if lexeme = "var" then varKeyword
  else if lexeme = "if" then ifKeyword
  else if lexeme = "else" then elseKeyword
  else if lexeme = "then" then thenKeyword
  else if lexeme = "for" then forKeyword
  else if lexeme = "end" then endKeyword
  else word

/-- The kind of a character that is a token on its own. -/
def ofPunctuation? (c : Char) : Option TokenKind :=
  if c = ':' then some colon
  else if c = ';' then some semicolon
  else if c = '[' then some leftBracket
  else if c = ']' then some rightBracket
  else if c = '\x7b' then some leftBrace
  else if c = '\x7d' then some rightBrace
  else none

end TokenKind

/-- The token that stands for the end of a source of `length` bytes. -/
def Token.endOf (length : Nat) : Token :=
  ⟨.eof, "", length⟩

end DualStack
