import Scriptlet.Grammar.Query

/-!
# The grammar

The rules for programs, types, statements and expressions.  A rule with alternatives tries them in
a fixed order.  Operators are read by cutting the window at the first occurrence of the operator
outside of parentheses: what stands before it must be one whole expression.  Which operator binds
looser is decided by the order of the alternatives alone.
-/

namespace Scriptlet

/-- The lexemes of a source, and how to find places in windows of them. -/
structure Layout where
  /-- The lexemes. -/
  lexemes : Array Lexeme
  /-- The closing parenthesis, inside a window, of the parentheses the window starts in. -/
  closing? : Window → Option Nat
  /-- The first occurrence of a token in a window outside of parentheses. -/
  find? : Token → Window → Option Nat

namespace Layout

/-- The stretch of source from lexeme `start` up to, not including, lexeme `stop`. -/
def spanOf (L : Layout) (start stop : Nat) : Span :=
  if stop ≤ start then .zero
  else
    ⟨(L.lexemes[start]?.map (·.span.lo)).getD 0, (L.lexemes[stop - 1]?.map (·.span.hi)).getD 0⟩

/-- Position of the first lexeme that is no line end, among the `n` lexemes from `lo` on. -/
def newlineRun (L : Layout) : (n lo : Nat) → Nat
  | 0, lo => lo
  | n + 1, lo =>
    match L.lexemes[lo]? with
    | some l => if l.token = .newline then newlineRun L n (lo + 1) else lo
    | none => lo

end Layout

namespace Grammar

open Rule

variable (L : Layout)

/-! ## Single tokens -/

/-- The next lexeme, which must be there; it stays unread. -/
def first : Rule Lexeme := fun w =>
  match w.first L.lexemes with
  | .ok l => .done (.ok (l, w.lo))
  | .error e => .done (.error e)

/-- The next lexeme if there is one; it stays unread. -/
def peek? : Rule (Option Lexeme) := fun w => .done (.ok (w.get? L.lexemes 0, w.lo))

/-- Passes over one lexeme. -/
def advance : Rule Unit := fun w => .done (.ok ((), (w.drop 1).lo))

/-- Reads a token that must be there. -/
def expect (x : Expected) : Rule Lexeme := do
  let l ← first L
  if x.accepts l.token then
    advance
    return l
  else fail (.unexpected l x)

/-- Reads a token if it is there; some token must be. -/
def accept (x : Expected) : Rule Bool := do
  let l ← first L
  if x.accepts l.token then
    advance
    return true
  else return false

/-- Whether the next token is as expected; it stays unread. -/
def nextIs (x : Expected) : Rule Bool := do
  match ← peek? L with
  | some l => return x.accepts l.token
  | none => return false

/-- Passes over line ends. -/
def skipNewlines : Rule Unit := do
  let w ← window
  jump (L.newlineRun w.length w.lo)

/-- The stretch of source read since lexeme `start`. -/
def spanFrom (start : Nat) : Rule Span := do
  return L.spanOf start (← here)

/-- Reads an identifier. -/
def name : Rule Name := do
  let l ← first L
  match l.token with
  | .ident text =>
    advance
    return ⟨text, l.span⟩
  | _ => fail (.unexpected l .ident)

/-! ## Sequences -/

/-- Elements up to the closing symbol, in at most `rounds` rounds.  Between two elements the
separator may be missing, and behind the last one it may stand. -/
def elements {α : Type} (close separator : Punct) (element : Rule α) : Nat → Rule (List α)
  | 0 => fail .endOfInput
  | rounds + 1 => do
    if ← accept L (.symbol close) then return []
    let x ← element
    -- Whether the separator is there makes no difference.
    let _ ← accept L (.symbol separator)
    let xs ← elements close separator element rounds
    return x :: xs

/-- Elements between two symbols, with separators. -/
def sequence {α : Type} (opening close separator : Punct) (element : Rule α) : Rule (List α) := do
  let _ ← expect L (.symbol opening)
  sized (elements L close separator element)

/-- Statements up to the closing brace, in at most `rounds` rounds. -/
def statements : Nat → Rule (List Expr)
  | 0 => fail .endOfInput
  | rounds + 1 => do
    skipNewlines L
    if ← accept L (.symbol .rbrace) then return []
    let s ← level .top
    let rest ← statements rounds
    return s :: rest

/-- Statements between braces. -/
def body : Rule (List Expr) := do
  let _ ← expect L (.symbol .lbrace)
  sized (statements L)

/-! ## Expressions of any level -/

/-- Keeps the outcome that reaches further, the earlier one on a tie. -/
def longer (best : Option (Expr × Nat)) : Outcome Expr → Option (Expr × Nat)
  | .error _ => best
  | .ok found =>
    match best with
    | none => some found
    | some b => if b.2 < found.2 then some found else some b

/-- The longest outcome of several levels read from the same place. -/
def longest : List Level → Option (Expr × Nat) → Window → Query (Option (Expr × Nat))
  | [], best, _ => .done best
  | l :: ls, best, w => .ask ⟨l, w⟩ fun o => longest ls (longer best o) w

/-- Reads one expression: every level is tried and the longest reading wins. -/
def expr : Rule Expr := do
  let l ← first L
  fun w => (longest [.top, .math, .comparison, .short] none w).bind fun
    | some found => .done (.ok found)
    | none => .done (.error (.wrongForm l .expr))

/-- Reads with the first of several rules that does not fail. -/
def firstOf (form : Form) (rules : List (Rule Expr)) : Rule Expr := do
  let l ← first L
  rules.foldr orElse (fail (.wrongForm l form))

/-- Reads an expression that fills the window `inner`, without moving on. -/
def wholeIn (inner : Window) (form : Form) : Rule Expr := do
  let (e, rest) ← exprIn inner
  -- Nothing of the window may be left.
  match Window.get? ⟨rest, inner.hi⟩ L.lexemes 0 with
  | some l => fail (.wrongForm l form)
  | none => return e

/-! ## Short expressions -/

/-- Reads a literal. -/
def literal : Rule Expr := do
  let l ← first L
  match l.token with
  | .int n => advance; return .int l.span n
  | .bool b => advance; return .bool l.span b
  | .char c => advance; return .char l.span c
  | .str t => advance; return .str l.span t
  | _ => fail (.wrongForm l .literal)

/-- Reads a variable. -/
def variableName : Rule Expr := do
  let n ← name L
  return .var n.span n.text

/-- Reads `base[position]`. -/
def element : Rule (Name × Expr × Span) := do
  let start ← here
  let base ← name L
  let _ ← expect L (.symbol .lbracket)
  let position ← level .expr
  let _ ← expect L (.symbol .rbracket)
  return (base, position, ← spanFrom L start)

/-- Reads `base[position]` as an expression. -/
def index : Rule Expr := do
  let (base, position, span) ← element L
  return .index span base position

/-- Reads a literal, an element or a variable. -/
def short : Rule Expr := do
  let l ← first L
  match l.token with
  | .int _ | .bool _ | .char _ | .str _ => literal L
  | .ident _ => orElse (index L) (variableName L)
  | _ => fail (.wrongForm l .short)

/-! ## Operators -/

/-- Reads `-operand`. -/
def neg : Rule Expr := do
  let start ← here
  let _ ← expect L (.symbol .minus)
  let e ← level .expr
  return .neg (← spanFrom L start) e

/-- Reads `!operand`. -/
def not : Rule Expr := do
  let start ← here
  let _ ← expect L (.symbol .bang)
  let e ← level .expr
  return .not (← spanFrom L start) e

/-- Reads `left op right`, cut at the first `op` outside of parentheses. -/
def binary (op : BinOp) : Rule Expr := do
  let w ← window
  match L.find? op.token w with
  | none => fail .endOfInput
  | some p =>
    let left ← wholeIn L ⟨w.lo, p⟩ (.operation op)
    jump (p + 1)
    -- The right operand need not fill what is left: the caller goes on behind it.
    let right ← level .expr
    return .binary (← spanFrom L w.lo) op left right

/-- Reads `(inner)`. -/
def parens : Rule Expr := do
  let start ← here
  let _ ← expect L (.symbol .lparen)
  let w ← window
  match L.closing? w with
  | none => fail .endOfInput
  | some p =>
    let inner ← wholeIn L ⟨w.lo, p⟩ .parens
    jump p
    let _ ← expect L (.symbol .rparen)
    return .parens (← spanFrom L start) inner

/-- Reads signs, ranges, arithmetic and parentheses. -/
def math : Rule Expr :=
  firstOf L .math
    [neg L, not L, binary L .range, binary L .sub, binary L .add, binary L .mul, binary L .div,
     parens L]

/-- Reads connectives and comparisons. -/
def comparison : Rule Expr :=
  firstOf L .comparison [binary L .and, binary L .or, binary L .less, binary L .greater]

/-! ## Statements -/

/-- Reads `name = value`, and where it stands. -/
def assignment : Rule (String × Expr) := do
  let n ← name L
  let _ ← expect L (.symbol .equals)
  let value ← level .expr
  return (n.text, value)

/-- Reads `name = value` as a statement. -/
def assign : Rule Expr := do
  let start ← here
  let (n, value) ← assignment L
  return .assign (← spanFrom L start) n value

/-- Reads `var name = value` or `val name = value`. -/
def binding : Rule Expr := do
  let start ← here
  let l ← first L
  match l.token with
  | .keyword .varKw => declaration start true
  | .keyword .valKw => declaration start false
  | _ => fail (.wrongForm l .binding)
where
  /-- What follows the first word of a declaration. -/
  declaration (start : Nat) (mutable : Bool) : Rule Expr := do
    advance
    let (n, value) ← assignment L
    return .declare (← spanFrom L start) mutable n value

/-- Reads `name(args)`. -/
def call : Rule Expr := do
  let start ← here
  let n ← name L
  let args ← sequence L .lparen .rparen .comma (level .expr)
  return .call (← spanFrom L start) n.text args

/-- Reads `base[position] = value`. -/
def store : Rule Expr := do
  let start ← here
  let (base, position, target) ← element L
  let _ ← expect L (.symbol .equals)
  let value ← level .expr
  return .store (← spanFrom L start) target base position value

/-- Reads what follows `else`: a lone expression, or statements between braces. -/
def otherwise : Rule (List Expr) :=
  orElse (do return [← level .expr]) (body L)

/-- Reads a conditional. -/
def branch : Rule Expr := do
  let start ← here
  let _ ← expect L (.keyword .ifKw)
  let _ ← expect L (.symbol .lparen)
  let cond ← level .expr
  let _ ← expect L (.symbol .rparen)
  let thenBody ← body L
  if ← nextIs L (.keyword .elseKw) then
    advance
    let elseBody ← otherwise L
    return .branch (← spanFrom L start) cond thenBody elseBody
  else return .branch (← spanFrom L start) cond thenBody []

/-- Reads a loop over the elements of an array or a range. -/
def forIn : Rule Expr := do
  let start ← here
  let _ ← expect L (.keyword .forKw)
  let _ ← expect L (.symbol .lparen)
  let n ← name L
  let _ ← expect L (.keyword .inKw)
  let iterable ← level .expr
  let _ ← expect L (.symbol .rparen)
  let loopBody ← body L
  return .forIn (← spanFrom L start) n.text iterable loopBody

/-- Reads a loop under a condition. -/
def loop : Rule Expr := do
  let start ← here
  let _ ← expect L (.keyword .whileKw)
  let _ ← expect L (.symbol .lparen)
  let cond ← level .expr
  let _ ← expect L (.symbol .rparen)
  let loopBody ← body L
  return .loop (← spanFrom L start) cond loopBody

/-- Reads a `return`, with a value if one follows. -/
def ret : Rule Expr := do
  let start ← here
  let _ ← expect L (.keyword .returnKw)
  match ← orElse (do return some (← level .expr)) (return none) with
  | some value => return .returnValue (← spanFrom L start) value
  | none => return .returnUnit (← spanFrom L start)

/-- Reads a conditional, a loop or a `return`. -/
def control : Rule Expr := do
  let l ← first L
  match l.token with
  | .keyword .ifKw => branch L
  | .keyword .forKw => forIn L
  | .keyword .whileKw => loop L
  | .keyword .returnKw => ret L
  | _ => fail (.wrongForm l .control)

/-- Reads a statement or a call. -/
def top : Rule Expr := do
  let l ← first L
  match l.token with
  | .ident _ => firstOf L .top [assign L, call L, store L]
  | .keyword .ifKw | .keyword .forKw | .keyword .whileKw | .keyword .returnKw => control L
  | .keyword .varKw | .keyword .valKw => binding L
  | .keyword .breakKw => fail (.unsupported l)
  | _ => fail (.wrongForm l .top)

/-- The rule of each level. -/
def ofLevel : Level → Rule Expr
  | .expr => expr L
  | .top => top L
  | .math => math L
  | .comparison => comparison L
  | .short => short L

/-! ## Declarations -/

/-- Reads a type that is nested less than `depth` deep. -/
def typeWithin : Nat → Rule TypeRef
  | 0 => fail .endOfInput
  | depth + 1 => do
    let start ← here
    let n ← name L
    if ← nextIs L (.symbol .less) then
      let args ← sequence L .less .greater .comma (typeWithin depth)
      return .generic (← spanFrom L start) n.text args
    else return .simple n.span n.text

/-- Reads a type. -/
def type : Rule TypeRef := sized (typeWithin L)

/-- Reads `name: type`. -/
def param : Rule Param := do
  let start ← here
  let n ← name L
  let _ ← expect L (.symbol .colon)
  let t ← type L
  return ⟨← spanFrom L start, n.text, t⟩

/-- Reads a result type if a colon announces one. -/
def resultType : Rule (Option TypeRef) := do
  if ← nextIs L (.symbol .colon) then
    advance
    return some (← type L)
  else return none

/-- Reads a function. -/
def function : Rule Fun := do
  let start ← here
  let _ ← expect L (.keyword .funKw)
  let n ← name L
  let params ← sequence L .lparen .rparen .comma (param L)
  let result ← resultType L
  let statements ← body L
  return ⟨← spanFrom L start, n.text, params, result, statements⟩

/-- Functions up to the end of the window, in at most `rounds` rounds. -/
def functions : Nat → Rule (List Fun)
  | 0 => fail .endOfInput
  | rounds + 1 => do
    skipNewlines L
    match ← peek? L with
    | none => return []
    | some _ =>
      let f ← function L
      let fs ← functions rounds
      return f :: fs

/-- Reads a program. -/
def program : Rule Program := do
  let start ← here
  let fs ← sized (functions L)
  return ⟨← spanFrom L start, fs⟩

end Grammar

/-- The rules of the grammar that can be asked for on their own. -/
inductive Production
  | program | function | param | type | body
  | expr | top | control | binding | assign | call | store | branch | forIn | loop | ret
  | math | comparison | neg | not | parens | short | literal | variableName | index
  /-- The rule of one operator. -/
  | operation (op : BinOp)
deriving DecidableEq

/-- The rule of each production. -/
def Production.rule (L : Layout) : Production → Rule Fragment
  | program => return .program (← Grammar.program L)
  | function => return .function (← Grammar.function L)
  | param => return .param (← Grammar.param L)
  | type => return .type (← Grammar.type L)
  | body => return .body (← Grammar.body L)
  | expr => return .expr (← Rule.level .expr)
  | top => return .expr (← Rule.level .top)
  | control => return .expr (← Grammar.control L)
  | binding => return .expr (← Grammar.binding L)
  | assign => return .expr (← Grammar.assign L)
  | call => return .expr (← Grammar.call L)
  | store => return .expr (← Grammar.store L)
  | branch => return .expr (← Grammar.branch L)
  | forIn => return .expr (← Grammar.forIn L)
  | loop => return .expr (← Grammar.loop L)
  | ret => return .expr (← Grammar.ret L)
  | math => return .expr (← Rule.level .math)
  | comparison => return .expr (← Rule.level .comparison)
  | neg => return .expr (← Grammar.neg L)
  | not => return .expr (← Grammar.not L)
  | parens => return .expr (← Grammar.parens L)
  | short => return .expr (← Rule.level .short)
  | literal => return .expr (← Grammar.literal L)
  | variableName => return .expr (← Grammar.variableName L)
  | index => return .expr (← Grammar.index L)
  | operation op => return .expr (← Grammar.binary L op)

end Scriptlet
