import Scriptlet.Text.Span
import Scriptlet.Text.Quoted

/-!
# Tokens

The words of the language: keywords, symbols, operators of two characters, literals with their
decoded contents, names and line ends.  A `Lexeme` is a token with the text it was read from.
-/

namespace Scriptlet

/-- Reserved words. -/
inductive Keyword
  | funKw | ifKw | elseKw | forKw | inKw | whileKw | varKw | valKw | returnKw | breakKw
deriving DecidableEq, Hashable

namespace Keyword

/-- Every reserved word. -/
def all : List Keyword :=
  [funKw, ifKw, elseKw, forKw, inKw, whileKw, varKw, valKw, returnKw, breakKw]

/-- The word as it stands in a source. -/
def spelling : Keyword → String
  | funKw => "fun"
  | ifKw => "if"
  | elseKw => "else"
  | forKw => "for"
  | inKw => "in"
  | whileKw => "while"
  | varKw => "var"
  | valKw => "val"
  | returnKw => "return"
  | breakKw => "break"

/-- The word as messages name it. -/
def kind : Keyword → String
  | funKw => "Fun"
  | ifKw => "If"
  | elseKw => "Else"
  | forKw => "For"
  | inKw => "In"
  | whileKw => "While"
  | varKw => "Var"
  | valKw => "Val"
  | returnKw => "Return"
  | breakKw => "Break"

/-- The reserved word spelt `word`. -/
def ofSpelling? (word : String) : Option Keyword :=
  all.find? fun k => k.spelling = word

end Keyword

/-- Symbols of one character. -/
inductive Punct
  | lparen | rparen | lbrace | rbrace | lbracket | rbracket | comma | colon
  | plus | minus | star | slash | percent | less | greater | equals | bang
deriving DecidableEq, Hashable

namespace Punct

/-- Every symbol. -/
def all : List Punct :=
  [lparen, rparen, lbrace, rbrace, lbracket, rbracket, comma, colon,
   plus, minus, star, slash, percent, less, greater, equals, bang]

/-- The character of a symbol. -/
def char : Punct → Char
  | lparen => '('
  | rparen => ')'
  | lbrace => '\x7b'
  | rbrace => '\x7d'
  | lbracket => '['
  | rbracket => ']'
  | comma => ','
  | colon => ':'
  | plus => '+'
  | minus => '-'
  | star => '*'
  | slash => '/'
  | percent => '%'
  | less => '<'
  | greater => '>'
  | equals => '='
  | bang => '!'

/-- The symbol with the character `c`. -/
def ofChar? (c : Char) : Option Punct :=
  all.find? fun p => p.char = c

end Punct

/-- A word of a source. -/
inductive Token
  /-- A line end, possibly with the line comment before it. -/
  | newline
  /-- A name. -/
  | ident (name : String)
  /-- A symbol of one character. -/
  | symbol (p : Punct)
  /-- A text literal, decoded. -/
  | str (text : String)
  /-- A character literal, decoded. -/
  | char (c : Char)
  /-- A number. -/
  | int (n : Nat)
  /-- A truth value. -/
  | bool (b : Bool)
  /-- The operator `&&`. -/
  | andOp
  /-- The operator `||`. -/
  | orOp
  /-- The operator `..`. -/
  | rangeOp
  /-- A reserved word. -/
  | keyword (k : Keyword)
  /-- A stretch of text that is no word. -/
  | unexpected
deriving DecidableEq

namespace Token

/-- A token is hashed by its kind and what it carries, a character by its code point. -/
instance : Hashable Token where
  hash
    | newline => 0
    | ident name => mixHash 1 (hash name)
    | symbol p => mixHash 2 (hash p)
    | str text => mixHash 3 (hash text)
    | char c => mixHash 4 (hash c.toNat)
    | int n => mixHash 5 (hash n)
    | bool b => mixHash 6 (hash b)
    | andOp => 7
    | orOp => 8
    | rangeOp => 9
    | keyword k => mixHash 10 (hash k)
    | unexpected => 11

/-- The kind of a token as messages name it. -/
def kind : Token → String
  | newline => "NewLine"
  | ident _ => "Ident"
  | symbol _ => "Symbol"
  | str _ => "Str"
  | char _ => "Char"
  | int _ => "Int"
  | bool _ => "Bool"
  | andOp => "AndOp"
  | orOp => "OrOp"
  | rangeOp => "RangeOp"
  | keyword k => k.kind
  | unexpected => "Unexpected"

/-- Truth values inside a description are capitalised. -/
def describeBool (b : Bool) : String := if b then "True" else "False"

/-- What a token carries besides its kind, as messages show it. -/
def describePayload? : Token → Option String
  | ident name => some (Text.Quoted.quote name)
  | symbol p => some (Text.Quoted.quote (String.singleton p.char))
  | str text => some (Text.Quoted.quote text)
  | char c => some (Text.Quoted.quote (String.singleton c))
  | int n => some (toString n)
  | bool b => some (describeBool b)
  | _ => none

/-- A token as messages show it: its kind, and what it carries in parentheses. -/
def describe (t : Token) : String :=
  match t.describePayload? with
  | none => t.kind
  | some payload => t.kind ++ "(" ++ payload ++ ")"

end Token

/-- A token with the place and the text it was read from. -/
structure Lexeme where
  /-- The word. -/
  token : Token
  /-- Where it stands. -/
  span : Span
  /-- The text it was read from. -/
  text : String
deriving DecidableEq

/-- A lexeme shown with its place. -/
def Lexeme.describe (l : Lexeme) : String := l.token.describe ++ "@" ++ l.span.render

end Scriptlet
