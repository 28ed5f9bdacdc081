import Scriptlet.Proofs.Grammar.Spells
import Scriptlet.Proofs.Syntax.Induction
import Scriptlet.Syntax.Spanless

/-!
# Printable trees

The forms of expressions and statements whose tokens can be read back.  Operands of operators and
indices must not hold an operator outside of parentheses, and statements stand only where statements
belong.  The tokens of such trees have nested parentheses, and an operand is clear of operators.
-/

namespace Scriptlet

open Token

/-! ## Expressions -/

namespace Expr

/-- Whether an expression may be an operand: a literal, a variable, an element, a call, or an
expression in parentheses. -/
def isOperand : Expr → Bool
  | int .. | bool .. | char .. | str .. | var .. | index .. | call .. | parens .. => true
  | _ => false

mutual

/-- An expression that can be read back where an expression is expected. -/
def Plain : Expr → Prop
  | int .. | bool .. | char .. | str .. | var .. => True
  | index _ _ e | neg _ e | not _ e => e.isOperand = true ∧ e.Plain
  | parens _ e => e.Plain
  | binary _ _ l r => (l.isOperand = true ∧ l.Plain) ∧ r.isOperand = true ∧ r.Plain
  | call _ _ args => PlainAll args
  | _ => False

/-- Several expressions that can be read back. -/
def PlainAll : List Expr → Prop
  | [] => True
  | e :: es => e.Plain ∧ PlainAll es

end

mutual

/-- A statement that can be read back on a line of its own. -/
def PlainStatement : Expr → Prop
  | declare _ _ _ value | assign _ _ value | returnValue _ value => value.Plain
  | call _ _ args => PlainAll args
  | store _ _ _ position value => (position.isOperand = true ∧ position.Plain) ∧ value.Plain
  | branch _ cond body otherwise =>
    cond.Plain ∧ PlainStatements body ∧ PlainStatements otherwise
  | forIn _ _ e body | loop _ e body => e.Plain ∧ PlainStatements body
  | returnUnit _ => True
  | _ => False

/-- Several statements that can be read back. -/
def PlainStatements : List Expr → Prop
  | [] => True
  | e :: es => e.PlainStatement ∧ PlainStatements es

end

theorem plainAll_iff (es : List Expr) : PlainAll es ↔ ∀ e ∈ es, e.Plain := by
  induction es with
  | nil => simp [PlainAll]
  | cons e es ih => rw [PlainAll, ih, List.forall_mem_cons]

theorem plainStatements_iff (es : List Expr) :
    PlainStatements es ↔ ∀ e ∈ es, e.PlainStatement := by
  induction es with
  | nil => simp [PlainStatements]
  | cons e es ih => rw [PlainStatements, ih, List.forall_mem_cons]

theorem spanlessAll_eq (es : List Expr) : spanlessAll es = es.map spanless := by
  induction es with
  | nil => rfl
  | cons e es ih => rw [spanlessAll, ih, List.map_cons]

end Expr

theorem TypeRef.spanlessAll_eq (ts : List TypeRef) : spanlessAll ts = ts.map spanless := by
  induction ts with
  | nil => rfl
  | cons t ts ih => rw [spanlessAll, ih, List.map_cons]

/-! ## Tokens of expressions -/

/-- Whether a token starts an expression that can be read back. -/
def Token.starts : Token → Bool
  | .int _ | .bool _ | .char _ | .str _ | .ident _ => true
  | .symbol .minus | .symbol .bang | .symbol .lparen => true
  | _ => false

theorem Token.Nested.separate {lists : List (List Token)} (h : ∀ ts ∈ lists, Nested ts) :
    Nested (Token.separate (.symbol .comma) lists) := by
  induction lists with
  | nil => exact .nil
  | cons ts lists ih =>
    have hts := h ts List.mem_cons_self
    have hrest := ih fun us hus => h us (List.mem_cons_of_mem _ hus)
    cases lists with
    | nil => exact hts
    | cons us lists => exact hts.append (.cons rfl hrest)

theorem BinOp.nesting_token (op : BinOp) : op.token.nesting = 0 := by
  cases op <;> rfl

theorem BinOp.token_inj {op op' : BinOp} (h : op.token = op'.token) : op = op' := by
  cases op <;> cases op' <;> first | rfl | cases h

namespace Expr

/-- Expressions start with a token that starts one. -/
theorem Plain.exists_first {e : Expr} (he : e.Plain) :
    ∃ t ts, e.tokens = t :: ts ∧ t.starts = true := by
  induction e using Expr.induction with
  | binary s op l r ihl ihr =>
    obtain ⟨t, ts, hl, ht⟩ := ihl he.1.2
    exact ⟨t, ts ++ op.token :: r.tokens, by rw [tokens, hl, List.cons_append], ht⟩
  | int | bool | char | str | var | index | neg | not | parens | call =>
    exact ⟨_, _, rfl, rfl⟩
  | _ => exact absurd he id

/-- The signs of negations start no operand. -/
theorem Plain.exists_first_operand {e : Expr} (he : e.isOperand = true) :
    ∃ t ts, e.tokens = t :: ts ∧ t ≠ .symbol .minus ∧ t ≠ .symbol .bang := by
  cases e with
  | int | bool | char | str | var | index | parens | call =>
    exact ⟨_, _, rfl, by simp, by simp⟩
  | _ => cases he

theorem nested_arguments {args : List Expr} (h : ∀ e ∈ args, Nested e.tokens) :
    Nested (separate (.symbol .comma) (tokensOfAll args)) := by
  refine .separate ?_
  rw [Grammar.tokensOfAll_eq]
  simpa using h

theorem Plain.nested {e : Expr} (he : e.Plain) : Nested e.tokens := by
  induction e using Expr.induction with
  | int | bool | char | str | var => exact .cons rfl .nil
  | index s base position ih =>
    have hinner := (ih he.2).append (.cons (t := .symbol .rbracket) rfl .nil)
    exact .cons rfl (.cons rfl hinner)
  | neg s e ih | not s e ih => exact .cons rfl (ih he.2)
  | parens s e ih => exact .parens (ih he) .nil
  | binary s op l r ihl ihr =>
    exact (ihl he.1.2).append (.cons op.nesting_token (ihr he.2.2))
  | call s name args ih =>
    have hargs := (plainAll_iff args).1 he
    exact .cons rfl (.parens (nested_arguments fun e hmem => ih e hmem (hargs e hmem)) .nil)
  | _ => exact absurd he id

/-- Operators stand only inside of parentheses in an operand. -/
theorem Plain.clear {e : Expr} (he : e.Plain) (hop : e.isOperand = true) (op : BinOp) :
    Clear op.token e.tokens := by
  have hne : ∀ t : Token, (∀ p, t ≠ .symbol p) ∧ t ≠ .andOp ∧ t ≠ .orOp ∧ t ≠ .rangeOp →
      t ≠ op.token := by
    rintro t ⟨hsymbol, hand, hor, hrange⟩
    cases op <;> first | exact hsymbol _ | assumption
  induction e using Expr.induction with
  | int | bool | char | str | var => exact .cons rfl (hne _ (by simp)) .nil
  | index s base position ih =>
    have hbracket : ∀ p, p = .lbracket ∨ p = .rbracket → Token.symbol p ≠ op.token := by
      rintro p (rfl | rfl) <;> cases op <;> simp [BinOp.token]
    have hinner := (ih he.2 he.1).append
      (.cons (u := .symbol .rbracket) rfl (hbracket _ (.inr rfl)) .nil)
    exact .cons rfl (hne _ (by simp)) (.cons rfl (hbracket _ (.inl rfl)) hinner)
  | parens s e ih => exact .parens (Plain.nested he) .nil
  | call s name args ih =>
    have hargs := (plainAll_iff args).1 he
    exact .cons rfl (hne _ (by simp))
      (.parens (nested_arguments fun e hmem => (hargs e hmem).nested) .nil)
  | _ => cases hop

end Expr

end Scriptlet
