import Scriptlet.Syntax
import Scriptlet.Token.Spelling

/-!
# Writing syntax trees

The tokens of a syntax tree: every statement on a line of its own, the statements of a block
between braces, commas between arguments.  Tokens that only lay a program out can be left away
without changing which tree it is.
-/

namespace Scriptlet

/-- Puts `separator` between any two lists of tokens. -/
def Token.separate (separator : Token) : List (List Token) → List Token
  | [] => []
  | [ts] => ts
  | ts :: rest => ts ++ separator :: separate separator rest

/-- Whether a token only lays a program out. -/
def Token.isLayout : Token → Bool
  | .newline | .symbol .comma | .symbol .lbrace | .symbol .rbrace | .keyword .elseKw => true
  | _ => false

namespace Expr

/-- Tokens between braces, where each list of tokens is a line. -/
def braced (lines : List (List Token)) : List Token :=
  .symbol .lbrace :: .newline :: lines.flatMap (· ++ [.newline]) ++ [.symbol .rbrace]

/-- What follows `else`, where there is something. -/
def elsePart : List (List Token) → List Token
  | [] => []
  | lines => .keyword .elseKw :: braced lines

mutual

/-- The tokens of an expression or a statement. -/
def tokens : Expr → List Token
  | int _ n => [.int n]
  | bool _ b => [.bool b]
  | char _ c => [.char c]
  | str _ t => [.str t]
  | var _ name => [.ident name]
  | index _ base position =>
    .ident base.text :: .symbol .lbracket :: position.tokens ++ [.symbol .rbracket]
  | neg _ e => .symbol .minus :: e.tokens
  | not _ e => .symbol .bang :: e.tokens
  | parens _ e => .symbol .lparen :: e.tokens ++ [.symbol .rparen]
  | binary _ op l r => l.tokens ++ op.token :: r.tokens
  | declare _ mutable name value =>
    .keyword (if mutable then .varKw else .valKw) :: .ident name :: .symbol .equals :: value.tokens
  | assign _ name value => .ident name :: .symbol .equals :: value.tokens
  | call _ name args =>
    .ident name :: .symbol .lparen :: Token.separate (.symbol .comma) (tokensOfAll args) ++
      [.symbol .rparen]
  | store _ _ base position value =>
    .ident base.text :: .symbol .lbracket :: position.tokens ++
      .symbol .rbracket :: .symbol .equals :: value.tokens
  | branch _ cond body otherwise =>
    .keyword .ifKw :: .symbol .lparen :: cond.tokens ++
      .symbol .rparen :: braced (tokensOfAll body) ++ elsePart (tokensOfAll otherwise)
  | forIn _ name iterable body =>
    .keyword .forKw :: .symbol .lparen :: .ident name :: .keyword .inKw :: iterable.tokens ++
      .symbol .rparen :: braced (tokensOfAll body)
  | loop _ cond body =>
    .keyword .whileKw :: .symbol .lparen :: cond.tokens ++
      .symbol .rparen :: braced (tokensOfAll body)
  | returnUnit _ => [.keyword .returnKw]
  | returnValue _ value => .keyword .returnKw :: value.tokens

/-- The tokens of each of several expressions. -/
def tokensOfAll : List Expr → List (List Token)
  | [] => []
  | e :: es => e.tokens :: tokensOfAll es

end

end Expr

namespace TypeRef

mutual

/-- The tokens of a type. -/
def tokens : TypeRef → List Token
  | simple _ name => [.ident name]
  | generic _ name args =>
    .ident name :: .symbol .less :: Token.separate (.symbol .comma) (tokensOfAll args) ++
      [.symbol .greater]

/-- The tokens of each of several types. -/
def tokensOfAll : List TypeRef → List (List Token)
  | [] => []
  | t :: ts => t.tokens :: tokensOfAll ts

end

end TypeRef

/-- The tokens of a parameter. -/
def Param.tokens (p : Param) : List Token := .ident p.name :: .symbol .colon :: p.type.tokens

/-- The tokens of a declared result type. -/
def TypeRef.resultTokens : Option TypeRef → List Token
  | none => []
  | some t => .symbol .colon :: t.tokens

/-- The tokens of a function. -/
def Fun.tokens (f : Fun) : List Token :=
  .keyword .funKw :: .ident f.name :: .symbol .lparen ::
    Token.separate (.symbol .comma) (f.params.map Param.tokens) ++
      .symbol .rparen :: TypeRef.resultTokens f.result ++ Expr.braced (Expr.tokensOfAll f.body)

/-- The tokens of a program. -/
def Program.tokens (p : Program) : List Token := p.functions.flatMap (·.tokens ++ [.newline])

/-- A program as it is written. -/
def Program.print (p : Program) : String := String.ofList (Token.spellAll p.tokens)

end Scriptlet
