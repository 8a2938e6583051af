/-
Blank characters and trimming.

Two notions of blank space meet in a prompt.  The language separates its words
by the four ASCII characters of `isSeparator`; a line typed at the prompt is
first cleaned of every blank of the Unicode property `White_Space` at its ends.
-/

namespace DualStack.Text

/-- The characters that separate words in a source. -/
def isSeparator (c : Char) : Bool :=
  c == ' ' || c == '\t' || c == '\n' || c == '\r'

/-- The characters with the property `White_Space`. -/
def isBlank (c : Char) : Bool :=
  let code := c.toNat
  (9 ≤ code && code ≤ 13) || code == 0x20 || code == 0x85 || code == 0xa0 || code == 0x1680 ||
    (0x2000 ≤ code && code ≤ 0x200a) || code == 0x2028 || code == 0x2029 || code == 0x202f ||
    code == 0x205f || code == 0x3000

/-- A run of characters without the blanks at its end. -/
def trimEnd (cs : List Char) : List Char :=
  (cs.reverse.dropWhile isBlank).reverse

/-- A run of characters without the blanks at either end. -/
def trimBlanks (cs : List Char) : List Char :=
  trimEnd (cs.dropWhile isBlank)

/-- A text without the blanks at either end. -/
def trim (text : String) : String :=
  String.ofList (trimBlanks text.toList)

end DualStack.Text
