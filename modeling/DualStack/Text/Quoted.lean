/-
Quoted texts.

A text literal stands between double quotes in a source.  Inside, a backslash
makes the next character special: `\n`, `\t` and `\r` are the control characters
they name, `\"` and `\\` the character after the backslash, and a backslash in
front of anything else stands for itself.  `unescape` reads the part between the
quotes that way and `escape` is the shortest way to write a text back.

`quote` is the form a literal has when a program is shown: besides the five
escapes above it spells the null character `\0` and whatever a reader could not
see by its code point, which `unescape` does not resolve.  So a quoted text reads
back exactly when each of its characters is shown plainly or by one of the five.
-/
import DualStack.Text.Printable

namespace DualStack.Text

/-- Resolve the escapes of the raw text between two quotes. -/
def unescape : List Char → List Char
  | [] => []
  | '\\' :: 'n' :: cs => '\n' :: unescape cs
  | '\\' :: 't' :: cs => '\t' :: unescape cs
  | '\\' :: 'r' :: cs => '\r' :: unescape cs
  | '\\' :: '"' :: cs => '"' :: unescape cs
  | '\\' :: '\\' :: cs => '\\' :: unescape cs
  | '\\' :: c :: cs => '\\' :: c :: unescape cs
  | c :: cs => c :: unescape cs

/-- Write a text so that it can stand between two quotes: backslashes and quotes get a
backslash in front, all else stands for itself. -/
def escape (cs : List Char) : List Char :=
  cs.flatMap fun c => if c = '\\' ∨ c = '"' then ['\\', c] else [c]

/-- The lowercase hexadecimal digits of a number, most significant first and unpadded. -/
def hexDigits (n : Nat) : List Char :=
  Nat.toDigits 16 n

/-- How one character of a text is shown between quotes. -/
def showChar (c : Char) : List Char :=
  if c = '\x00' then ['\\', '0']
  else if c = '\t' then ['\\', 't']
  else if c = '\r' then ['\\', 'r']
  else if c = '\n' then ['\\', 'n']
  else if c = '"' then ['\\', '"']
  else if c = '\\' then ['\\', '\\']
  else if isPrintable c then [c]
  else ['\\', 'u', '\x7b'] ++ hexDigits c.toNat ++ ['\x7d']

/-- A text as it is shown in a program: quoted, with what cannot be seen spelt out. -/
def quote (text : String) : String :=
  String.ofList ('"' :: (text.toList.flatMap showChar ++ ['"']))

end DualStack.Text
