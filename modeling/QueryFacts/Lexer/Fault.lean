/-! What stops the lexer, and where. -/

namespace QueryFacts.Lexer

/-- A line and a column, both counted from one. -/
structure Position where
  line : Nat
  column : Nat
  deriving DecidableEq

namespace Position

def start : Position := ⟨1, 1⟩

def step (position : Position) (c : Char) : Position :=
  if c = '\n' then ⟨position.line + 1, 1⟩ else ⟨position.line, position.column + 1⟩

/-- The position after a text. -/
def after (text : List Char) : Position := text.foldl step start

end Position

inductive Fault where
  | unterminatedString
  | unterminatedEscapedString
  | unterminatedIdentifier
  | unterminatedComment
  deriving DecidableEq

def Fault.message : Fault → String
  | unterminatedString => "Unterminated string literal"
  | unterminatedEscapedString => "Unterminated encoded string literal"
  | unterminatedIdentifier => "Expected close delimiter '`' before EOF."
  | unterminatedComment => "Unexpected EOF while in a multi-line comment"

/-- A fault, and the rest of the text from the place that it is reported at. -/
structure Stop where
  fault : Fault
  rest : List Char
  deriving DecidableEq

/-- Where in `text` the lexer stopped. -/
def Stop.position (stop : Stop) (text : List Char) : Position :=
  Position.after (text.take (text.length - stop.rest.length))

end QueryFacts.Lexer
