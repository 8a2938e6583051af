/-
Reading tokens one at a time.

A stream hands out the tokens of a source on demand and always holds the one it
will hand out next, so it can tell whether there is more without moving.  Past
the end it hands out the end token again and again.
-/
import DualStack.Token.Scan

namespace DualStack

/-- A source that is being read token by token. -/
structure TokenStream where
  /-- The token to be handed out next. -/
  current : Token
  /-- The place after it. -/
  cursor : Cursor

namespace TokenStream

/-- The stream that reads from a cursor. -/
def ofCursor (k : Cursor) : TokenStream :=
  ⟨k.next.1, k.next.2⟩

/-- The stream that reads a source from its start. -/
def ofSource (source : String) : TokenStream :=
  ofCursor (Cursor.ofSource source)

/-- Whether the next token is not the end token. -/
def hasMore (s : TokenStream) : Bool :=
  s.current.kind ≠ .eof

/-- Hand out the next token, which is the end token once the source is exhausted. -/
def nextToken (s : TokenStream) : Token × TokenStream :=
  (s.current, ofCursor s.cursor)

/-- Hand out the next token if there is one before the end. -/
def next? (s : TokenStream) : Option Token × TokenStream :=
  if s.hasMore then (some s.nextToken.1, s.nextToken.2) else (none, s)

end TokenStream

end DualStack
