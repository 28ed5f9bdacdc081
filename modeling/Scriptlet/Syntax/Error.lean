import Scriptlet.Syntax

/-!
# Syntax errors

Why a text is not a program: the causes, the place each one points at, and its wording.
-/

namespace Scriptlet

/-- What a rule waits for at one place. -/
inductive Expected
  /-- Any identifier. -/
  | ident
  /-- A reserved word. -/
  | keyword (k : Keyword)
  /-- A symbol. -/
  | symbol (p : Punct)
deriving DecidableEq

namespace Expected

/-- Whether a token is what was waited for. -/
def accepts : Expected → Token → Bool
  | ident, .ident _ => true
  | keyword k, .keyword k' => k = k'
  | symbol p, .symbol p' => p = p'
  | _, _ => false

/-- What was waited for, as messages show it. -/
def describe : Expected → String
  | ident => "Ident"
  | keyword k => k.kind
  | symbol p => (Token.symbol p).describe

end Expected

/-- Forms of expression that a rule reads. -/
inductive Form
  | expr | top | control | binding | math | comparison | short | literal | parens
  /-- One operator with its operands. -/
  | operation (op : BinOp)
deriving DecidableEq

/-- A form as messages name it. -/
def Form.name : Form → String
  | expr => "Expr"
  | top => "TopExpr"
  | control => "ControlExpr"
  | binding => "Binding"
  | math => "MathExpr"
  | comparison => "ComparisonExpr"
  | short => "ShortExpr"
  | literal => "Literal"
  | parens => "Parens"
  | operation op => op.kind

/-- Why reading failed. -/
inductive SyntaxError
  /-- The tokens ended too early. -/
  | endOfInput
  /-- A statement that the language reserves but does not have. -/
  | unsupported (found : Lexeme)
  /-- No expression of the given form starts, or goes on, at `found`. -/
  | wrongForm (found : Lexeme) (form : Form)
  /-- Another token stands where `expected` was waited for. -/
  | unexpected (found : Lexeme) (expected : Expected)
  /-- Tokens are left over, the first of them `found`. -/
  | leftover (found : Lexeme)
deriving DecidableEq

namespace SyntaxError

/-- The lexeme an error points at. -/
def lexeme? : SyntaxError → Option Lexeme
  | endOfInput => none
  | unsupported l | wrongForm l _ | unexpected l _ | leftover l => some l

/-- The place an error points at. -/
def span? (e : SyntaxError) : Option Span := e.lexeme?.map Lexeme.span

/-- The wording of an error. -/
def message : SyntaxError → String
  | endOfInput => "Unexpected end of input"
  | unsupported _ => "Not implemented yet"
  | wrongForm _ form => "Wrong expression type, expected " ++ form.name
  | unexpected l expected =>
    "Expected " ++ expected.describe ++ " but got " ++ l.token.describe ++ " : " ++ l.text
  | leftover _ => "source not fully parsed"

end SyntaxError

end Scriptlet
