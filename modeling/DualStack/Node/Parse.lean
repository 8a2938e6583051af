/-
Parsing: from tokens to a forest.

There is no precedence in a postfix language, so the only structure is nesting.
The parser keeps the scopes that are open, innermost first, and gives whatever it
completes to the innermost one.  A closing token must match the innermost scope,
and `else` must stand in a conditional that has not had one.

A definition nested in another scope is also put into the forest as soon as it
closes, in front of the node that contains it, so a definition takes effect even
where its surroundings never run.
-/
import DualStack.Node
import DualStack.Token.Scan

namespace DualStack

/-- The constructs that own what stands between their opening and their closing token. -/
inductive Construct where
  | definition
  | conditional
  | loop
  | list
  | vector
deriving DecidableEq

/-- How a construct is named in an error. -/
def Construct.describe : Construct → String
  | definition => "word definition"
  | conditional => "`if`"
  | loop => "`for`"
  | list => "`[`"
  | vector => "`\x7b`"

/-- The two tokens that have to be followed by a name. -/
inductive Naming where
  /-- Names a word, `:`. -/
  | newWord
  /-- Names a variable, `var`. -/
  | newVariable
deriving DecidableEq

/-- How the token that needs a name is written. -/
def Naming.lexeme : Naming → String
  | newWord => ":"
  | newVariable => "var"

/-- What is wrong with the nesting of a token sequence. -/
inductive ParseFault where
  /-- No word follows a `:` or `var`. -/
  | expectedName (after : Naming)
  /-- A closing token stands where no scope is open. -/
  | unexpectedClose (closer : String)
  /-- A closing token does not match the innermost scope. -/
  | mismatchedClose (closer : String) (inside : Construct)
  /-- An `else` stands outside a conditional, or for the second time in one. -/
  | elseOutsideIf
  /-- The tokens end while a scope is open. -/
  | unclosedScope (construct : Construct)
deriving DecidableEq

/-- The text of a fault. -/
def ParseFault.message : ParseFault → String
  | expectedName after => "expected name after `" ++ after.lexeme ++ "`"
  | unexpectedClose closer => "unexpected `" ++ closer ++ "` with no open scope"
  | mismatchedClose closer inside => "unexpected `" ++ closer ++ "` inside " ++ inside.describe
  | elseOutsideIf => "expecting `else` to be inside `if`"
  | unclosedScope construct => "unclosed " ++ construct.describe ++ " at end of input"

/-- A fault and the offset of the token it is reported at. -/
structure ParseError where
  offset : Nat
  fault : ParseFault
deriving DecidableEq

/-- The text of a parse error. -/
def ParseError.message (e : ParseError) : String :=
  "offset " ++ String.ofList (Decimal.digitsOf e.offset) ++ ": " ++ e.fault.message

/-- A scope that has been opened and not yet closed. Bodies are kept newest node first. -/
inductive Scope where
  | definition (name : String) (body : List Node)
  /-- A conditional before its `else`. -/
  | thenBranch (body : List Node)
  /-- A conditional after its `else`. -/
  | elseBranch (thenBody body : List Node)
  | loop (body : List Node)
  | collection (shape : Shape) (body : List Node)

namespace Scope

/-- The construct a scope belongs to. -/
def construct : Scope → Construct
  | definition _ _ => .definition
  | thenBranch _ => .conditional
  | elseBranch _ _ => .conditional
  | loop _ => .loop
  | collection .list _ => .list
  | collection .vector _ => .vector

/-- Give a scope its next node. -/
def append (node : Node) : Scope → Scope
  | definition name body => definition name (node :: body)
  | thenBranch body => thenBranch (node :: body)
  | elseBranch thenBody body => elseBranch thenBody (node :: body)
  | loop body => loop (node :: body)
  | collection k body => collection k (node :: body)

/-- The node a closed scope becomes. -/
def toNode : Scope → Node
  | definition name body => .definition name body.reverse
  | thenBranch body => .conditional body.reverse []
  | elseBranch thenBody body => .conditional thenBody.reverse body.reverse
  | loop body => .loop body.reverse
  | collection k body => .collection k body.reverse

end Scope

/-- An open scope with the offset of the token that opened it. -/
structure OpenScope where
  scope : Scope
  offset : Nat

/-- What has been parsed so far: the finished top-level nodes, newest first, and the open
scopes, innermost first. -/
structure Parser where
  forest : List Node
  scopes : List OpenScope

namespace Parser

/-- The state before the first token. -/
def start : Parser :=
  ⟨[], []⟩

/-- Give a finished node to the innermost open scope, or to the forest. -/
def insert (node : Node) : Parser → Parser
  | ⟨forest, []⟩ => ⟨node :: forest, []⟩
  | ⟨forest, s :: ss⟩ => ⟨forest, { s with scope := s.scope.append node } :: ss⟩

/-- Open a scope at an offset. -/
def enter (scope : Scope) (offset : Nat) (p : Parser) : Parser :=
  { p with scopes := ⟨scope, offset⟩ :: p.scopes }

/-- Put a definition that closes inside another scope into the forest as well. -/
def surface (node : Node) (p : Parser) : Parser :=
  match node, p.scopes with
  | .definition _ _, _ :: _ => { p with forest := node :: p.forest }
  | _, _ => p

/-- Close the innermost scope, which must belong to the construct the token closes. -/
def close (token : Token) (expected : Construct) (p : Parser) : Except ParseError Parser :=
  match p.scopes with
  | [] => .error ⟨token.offset, .unexpectedClose token.lexeme⟩
  | s :: ss =>
    if s.scope.construct = expected then
      let node := s.scope.toNode
      .ok (insert node (surface node { p with scopes := ss }))
    else .error ⟨token.offset, .mismatchedClose token.lexeme s.scope.construct⟩

/-- Go on to the second branch of the innermost scope. -/
def switch (token : Token) (p : Parser) : Except ParseError Parser :=
  match p.scopes with
  | ⟨.thenBranch body, offset⟩ :: ss =>
    .ok { p with scopes := ⟨.elseBranch body [], offset⟩ :: ss }
  | _ => .error ⟨token.offset, .elseOutsideIf⟩

/-- The forest, once the tokens have ended. -/
def finish (p : Parser) : Except ParseError (List Node) :=
  match p.scopes with
  | [] => .ok p.forest.reverse
  | s :: _ => .error ⟨s.offset, .unclosedScope s.scope.construct⟩

/-- Take in one token. A token that needs a name reaches this step only when no name follows. -/
def step (t : Token) (p : Parser) : Except ParseError Parser :=
  match t.kind with
  | .eof => .ok p
  | .number x => .ok (p.insert (.number x))
  | .text => .ok (p.insert (.text (String.ofList (Text.unescape t.lexeme.toList))))
  | .word => .ok (p.insert (Node.ofWord t.lexeme))
  | .varKeyword => .error ⟨t.offset, .expectedName .newVariable⟩
  | .colon => .error ⟨t.offset, .expectedName .newWord⟩
  | .ifKeyword => .ok (p.enter (.thenBranch []) t.offset)
  | .forKeyword => .ok (p.enter (.loop []) t.offset)
  | .leftBracket => .ok (p.enter (.collection .list []) t.offset)
  | .leftBrace => .ok (p.enter (.collection .vector []) t.offset)
  | .elseKeyword => p.switch t
  | .semicolon => p.close t .definition
  | .thenKeyword => p.close t .conditional
  | .endKeyword => p.close t .loop
  | .rightBracket => p.close t .list
  | .rightBrace => p.close t .vector

/-- Parse the remaining tokens, up to the first end token. -/
def run (p : Parser) : List Token → Except ParseError (List Node)
  | [] => p.finish
  | t :: ts =>
    match t.kind, ts with
    | .eof, _ => p.finish
    | .varKeyword, ⟨.word, name, _⟩ :: ts => run (p.insert (.declaration name)) ts
    | .colon, ⟨.word, name, _⟩ :: ts => run (p.enter (.definition name []) t.offset) ts
    | _, ts =>
      match p.step t with
      | .ok p => run p ts
      | .error e => .error e

end Parser

/-- The forest a token sequence stands for. -/
def parseTokens (tokens : List Token) : Except ParseError (List Node) :=
  Parser.start.run tokens

/-- The forest a source stands for. -/
def parse (source : String) : Except ParseError (List Node) :=
  parseTokens (Token.scan source)

end DualStack
