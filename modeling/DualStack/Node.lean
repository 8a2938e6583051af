/-
The tree of a program.

A program is a forest of nodes.  Leaves push something or name a word; the other
nodes own the nodes between their opening and their closing token.  `render`
writes a node back as source: its tokens separated by single spaces, numbers in
positional notation and texts quoted.  `same` compares two nodes by structure.
-/
import DualStack.Decimal.Numeral
import DualStack.Text.Quoted

namespace DualStack

/-- The two shapes a collection comes in. -/
inductive Shape where
  /-- Written `[ … ]`, grows at the front. -/
  | list
  /-- Written `{ … }`, grows at the end. -/
  | vector
deriving DecidableEq

/-- A node of a program. -/
inductive Node where
  /-- A word to look up and run. -/
  | word (name : String)
  /-- Pushes a reference to a variable, `&name`. -/
  | reference (name : String)
  /-- A numeral, pushes the number. -/
  | number (value : Float)
  /-- A text literal, pushes the text. -/
  | text (value : String)
  /-- Installs a word that pushes a reference to the variable, `var name`. -/
  | declaration (name : String)
  /-- Installs a word, `: name … ;`. -/
  | definition (name : String) (body : List Node)
  /-- Runs one of two bodies, `if … else … then`. -/
  | conditional (thenBody elseBody : List Node)
  /-- Runs a body again and again, `for … end`. -/
  | loop (body : List Node)
  /-- Pushes a list `[ … ]` or a vector `{ … }`. -/
  | collection (shape : Shape) (body : List Node)

namespace Node

/-- The node a word token stands for: `&name` is a reference, anything else names a word. -/
def ofWord (lexeme : String) : Node :=
  match lexeme.toList with
  | '&' :: c :: cs => reference (String.ofList (c :: cs))
  | _ => word lexeme

/-- Numbers in a program never have an exponent. -/
def numberStyle : Decimal.Style where
  positional _ := true
  infinity := "inf"
  negativeInfinity := "-inf"

mutual

/-- A node as source text. -/
def render : Node → String
  | word name => name
  | reference name => "&" ++ name
  | number x => Decimal.write numberStyle x
  | text s => Text.quote s
  | declaration name => "var " ++ name
  | definition name body => ": " ++ name ++ renderBody body ++ " ;"
  | conditional thenBody [] => "if" ++ renderBody thenBody ++ " then"
  | conditional thenBody (n :: ns) =>
    "if" ++ renderBody thenBody ++ " else" ++ renderBody (n :: ns) ++ " then"
  | loop body => "for" ++ renderBody body ++ " end"
  | collection .list body => "[" ++ renderBody body ++ " ]"
  | collection .vector body => "\x7b" ++ renderBody body ++ " \x7d"

/-- The nodes of a body, each after a space. -/
def renderBody : List Node → String
  | [] => ""
  | n :: ns => " " ++ render n ++ renderBody ns

end

mutual

/-- Whether two nodes are equal. Numbers are compared as numbers, so NaN equals nothing. -/
def same : Node → Node → Bool
  | word a, word b => a == b
  | reference a, reference b => a == b
  | number x, number y => x == y
  | text a, text b => a == b
  | declaration a, declaration b => a == b
  | definition a body, definition b body' => a == b && sameAll body body'
  | conditional thenBody elseBody, conditional thenBody' elseBody' =>
    sameAll thenBody thenBody' && sameAll elseBody elseBody'
  | loop body, loop body' => sameAll body body'
  | collection s body, collection t body' => s == t && sameAll body body'
  | _, _ => false

/-- Whether two forests are equal, node by node. -/
def sameAll : List Node → List Node → Bool
  | [], [] => true
  | n :: ns, m :: ms => same n m && sameAll ns ms
  | _, _ => false

end

end Node

end DualStack
