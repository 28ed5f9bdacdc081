import Scriptlet.Proofs.Grammar.Depth
import Scriptlet.Proofs.Grammar.Following
import Scriptlet.Proofs.Grammar.Headers
import Scriptlet.Proofs.Token.Tiling

/-!
# Where the nodes of a program stand

A node of a syntax tree has the span of the lexemes that it was read from, and its children were read
from stretches of these lexemes, one behind the other: `Program.node_placed`.
-/

namespace Scriptlet

/-! ## Nodes of a tree -/

/-- The nodes directly below an expression, in the order in which they stand.  The name of a list is
one of them, and so is the element that a value is stored into. -/
def Expr.children : Expr → List Fragment
  | .index _ base position => [.expr (.var base.span base.text), .expr position]
  | .store _ target base position value => [.expr (.index target base position), .expr value]
  | e => e.parts.map .expr

/-- The nodes directly below a node, in the order in which they stand. -/
def Fragment.children : Fragment → List Fragment
  | .program p => p.functions.map .function
  | .function f => f.params.map .param ++ (f.result.toList.map .type ++ f.body.map .expr)
  | .param p => [.type p.type]
  | .type (.simple _ _) => []
  | .type (.generic _ _ args) => args.map .type
  | .expr e => e.children
  | .body es => es.map .expr

/-- The nodes of a program, itself aside. -/
inductive Program.HasNode (p : Program) : Fragment → Prop
  | function {f : Fun} : f ∈ p.functions → HasNode p (.function f)
  | child {n c : Fragment} : HasNode p n → c ∈ n.children → HasNode p c

namespace Grammar

open Rule

variable {α : Type} {L : Layout} {lo hi i j k m : Nat}

/-! ## Nodes and the lexemes they are read from -/

/-- The node `n` is read from the lexemes from `i` up to, not including, `j`, and has their span. -/
structure NodeAt (L : Layout) (n : Fragment) (i j : Nat) : Prop where
  read : ∃ (q : Production) (hi : Nat), i ≤ hi ∧ hi ≤ L.lexemes.size ∧ (q.rule L).Parses L i hi n j
  lt : i < j
  le : j ≤ L.lexemes.size
  span : n.span? = some (L.spanOf i j)

/-- The nodes `ns` are read one behind the other, between the lexemes `lo` and `hi`. -/
inductive Row (L : Layout) : (lo : Nat) → (ns : List Fragment) → (hi : Nat) → Prop
  | nil {lo hi : Nat} : lo ≤ hi → Row L lo [] hi
  | cons {lo i j hi : Nat} {n : Fragment} {ns : List Fragment} : lo ≤ i → NodeAt L n i j →
      Row L j ns hi → Row L lo (n :: ns) hi

namespace Row

variable {ns ms : List Fragment} {n : Fragment}

theorem le (h : Row L lo ns hi) : lo ≤ hi := by
  induction h with
  | nil hle => exact hle
  | cons hle hn _ ih =>
    have hlt := hn.lt
    omega

/-- Between lexemes that stand further apart. -/
theorem widen {lo' hi' : Nat} (h : Row L lo ns hi) (hlo : lo' ≤ lo) (hhi : hi ≤ hi') :
    Row L lo' ns hi' := by
  induction h generalizing lo' with
  | nil hle => exact .nil (by omega)
  | cons hle hn _ ih => exact .cons (by omega) hn (ih (Nat.le_refl _) hhi)

theorem append (h : Row L lo ns m) (h' : Row L m ms hi) : Row L lo (ns ++ ms) hi := by
  induction h with
  | nil hle => exact h'.widen hle (Nat.le_refl _)
  | cons hle hn _ ih => exact .cons hle hn (ih h')

theorem single (h : NodeAt L n i j) (hlo : lo ≤ i) (hhi : j ≤ hi) : Row L lo [n] hi :=
  .cons hlo h (.nil hhi)

/-- Where each of the nodes is. -/
theorem exists_nodeAt (h : Row L lo ns hi) (hn : n ∈ ns) :
    ∃ i j, lo ≤ i ∧ NodeAt L n i j ∧ j ≤ hi := by
  induction h with
  | nil _ => cases hn
  | @cons lo i j hi n' ns hle hn' hrest ih =>
    have hlt := hn'.lt
    rcases List.mem_cons.1 hn with rfl | hn
    · exact ⟨i, j, hle, hn', hrest.le⟩
    · obtain ⟨i', j', hle', hat, hle''⟩ := ih hn
      exact ⟨i', j', by omega, hat, hle''⟩

end Row

/-- What a rule reads is the result of the production made of it. -/
theorem parses_return {r : Rule α} {f : α → Fragment} {a : α} (h : r.Parses L lo hi a k) :
    (do return f (← r)).Parses L lo hi (f a) k :=
  parses_bind.2 ⟨a, k, h, parses_pure.2 ⟨rfl, rfl⟩⟩

theorem exists_of_return {r : Rule α} {f : α → Fragment} {n : Fragment}
    (h : (do return f (← r)).Parses L lo hi n k) : ∃ a, n = f a ∧ r.Parses L lo hi a k := by
  obtain ⟨a, j, ha, h⟩ := parses_bind.1 h
  obtain ⟨rfl, rfl⟩ := parses_pure.1 h
  exact ⟨a, rfl, ha⟩

section

variable (hhi : hi ≤ L.lexemes.size)

include hhi

theorem nodeAt_level (hL : L.Sound) {l : Level} (q : Production)
    (hq : q.rule L = (do return Fragment.expr (← level l))) (hle : i ≤ hi) {e : Expr}
    (h : (level l).Parses L i hi e j) : NodeAt L (.expr e) i j := by
  have hbounds := bounds_level hL hle hhi h
  refine ⟨⟨q, hi, hle, hhi, ?_⟩, hbounds.1, Nat.le_trans hbounds.2 hhi,
    congrArg some (span_level hL hle hhi h)⟩
  rw [hq]
  exact parses_return h

theorem nodeAt_expr (hL : L.Sound) (hle : i ≤ hi) {e : Expr}
    (h : (level .expr).Parses L i hi e j) : NodeAt L (.expr e) i j :=
  nodeAt_level hhi hL .expr rfl hle h

theorem nodeAt_name {n : Name} (h : L.NameNext i hi n) :
    NodeAt L (.expr (.var n.span n.text)) i (i + 1) := by
  obtain ⟨hlt, l, hget, -, hspan⟩ := id h
  have hread := parses_variableName.2 ⟨n, h, rfl, rfl⟩
  refine ⟨⟨.variableName, hi, Nat.le_of_lt hlt, hhi, parses_return hread⟩, Nat.lt_succ_self i,
    Nat.le_trans hlt hhi, ?_⟩
  rw [spanOf_succ hget, hspan]
  rfl

theorem nodeAt_index (hL : L.Sound) (hle : i ≤ hi) {e : Expr} (h : (index L).Parses L i hi e j) :
    NodeAt L (.expr e) i j := by
  have hspan := span_nodeRule hL hle hhi .index h
  obtain ⟨n, -, hopen, position, c, hposition, hclose, -, hj⟩ := parses_index.1 h
  have hbounds := bounds_level hL hopen.1 hhi hposition
  have hlt := hclose.1
  exact ⟨⟨.index, hi, hle, hhi, parses_return h⟩, by omega, by omega, congrArg some hspan⟩

theorem nodeAt_type {depth : Nat} {t : TypeRef} (h : (typeWithin L depth).Parses L i hi t j) :
    NodeAt L (.type t) i j := by
  have hbounds := bounds_typeWithin h
  refine ⟨⟨.type, hi, by omega, hhi, parses_return (parses_type_of_within h)⟩, hbounds.1,
    Nat.le_trans hbounds.2 hhi, ?_⟩
  cases depth with
  | zero => cases h
  | succ depth =>
    obtain ⟨n, ⟨-, l, hget, -, hspan⟩, ⟨-, args, j, -, rfl, rfl⟩ | ⟨-, rfl, rfl⟩⟩ :=
      parses_typeWithin_succ.1 h
    · rfl
    · rw [spanOf_succ hget, hspan]
      rfl

theorem nodeAt_param {p : Param} (h : (param L).Parses L i hi p j) : NodeAt L (.param p) i j := by
  obtain ⟨n, hname, hcolon, t, j, ht, rfl, rfl⟩ := parses_param.1 h
  have hbounds := bounds_typeWithin (parses_type.1 ht)
  exact ⟨⟨.param, hi, by omega, hhi, parses_return h⟩, by omega, Nat.le_trans hbounds.2 hhi, rfl⟩

end

/-! ## Rows of nodes -/

theorem row_elements {close separator : Punct} {item : Rule α} {node : α → Fragment}
    {rounds : Nat} {xs : List α}
    (hitem : ∀ i j x, lo ≤ i → i < hi → item.Parses L i hi x j → NodeAt L (node x) i j)
    (h : (elements L close separator item rounds).Parses L lo hi xs k) :
    Row L lo (xs.map node) k := by
  induction rounds generalizing lo xs with
  | zero => cases h
  | succ rounds ih =>
    rcases parses_elements_succ.1 h with
      ⟨-, rfl, rfl⟩ | ⟨⟨t, hnext, -⟩, x, j, hx, j', hskip, rest, i, hrest, rfl, rfl⟩
    · exact .nil (Nat.le_succ lo)
    · have hn := hitem lo j x (Nat.le_refl lo) hnext.1 hx
      have hlt := hn.lt
      -- A separator only moves on what stands behind it.
      have hskipped := hskip.le
      have hrow := ih (fun i j x hi => hitem i j x (by omega)) hrest
      exact .cons (Nat.le_refl lo) hn (hrow.widen hskipped (Nat.le_refl _))

theorem row_statements (hL : L.Sound) (hhi : hi ≤ L.lexemes.size) {rounds : Nat} {es : List Expr}
    (h : (statements L rounds).Parses L lo hi es k) : Row L lo (es.map .expr) k := by
  induction rounds generalizing lo es with
  | zero => cases h
  | succ rounds ih =>
    have hle : lo ≤ L.newlineRun (hi - lo) lo := encloses_newlineRun.le
    rcases parses_statements_succ.1 h with
      ⟨-, rfl, rfl⟩ | ⟨⟨t, hnext, -⟩, s, j, hs, rest, i, hrest, rfl, rfl⟩
    · exact .nil (by omega)
    · exact .cons hle (nodeAt_level hhi hL .top rfl (Nat.le_of_lt hnext.1) hs) (ih hrest)

theorem row_body (hL : L.Sound) (hhi : hi ≤ L.lexemes.size) {es : List Expr}
    (h : (body L).Parses L lo hi es k) : Row L lo (es.map .expr) k :=
  (row_statements hL hhi (parses_body.1 h).2).widen (Nat.le_succ lo) (Nat.le_refl k)

theorem row_otherwise (hL : L.Sound) (hle : lo ≤ hi) (hhi : hi ≤ L.lexemes.size) {es : List Expr}
    (h : (otherwise L).Parses L lo hi es k) : Row L lo (es.map .expr) k := by
  rcases parses_otherwise.1 h with ⟨x, j, hx, rfl, rfl⟩ | ⟨-, hbody⟩
  · exact .single (nodeAt_expr hhi hL hle hx) (Nat.le_refl _) (Nat.le_refl _)
  · exact row_body hL hhi hbody

theorem row_resultType (hhi : hi ≤ L.lexemes.size) {result : Option TypeRef}
    (h : (resultType L).Parses L lo hi result k) : Row L lo (result.toList.map .type) k := by
  rcases parses_resultType.1 h with ⟨-, t, j, ht, rfl, rfl⟩ | ⟨-, rfl, rfl⟩
  · exact .single (nodeAt_type hhi (parses_type.1 ht)) (Nat.le_succ lo) (Nat.le_refl _)
  · exact .nil (Nat.le_refl _)

theorem bounds_body (hL : L.Sound) (hhi : hi ≤ L.lexemes.size) {es : List Expr}
    (h : (body L).Parses L lo hi es k) : lo < k ∧ k ≤ hi := by
  obtain ⟨hopen, hstatements⟩ := parses_body.1 h
  obtain ⟨c, rfl, hinner, hclose⟩ := encloses_statements
    (fun _ hlt hs => encloses_level hL (Nat.le_of_lt hlt) hhi hs) hstatements
  have hle := hinner.le
  exact ⟨by omega, hclose.1⟩

theorem row_function (hL : L.Sound) (hhi : hi ≤ L.lexemes.size) {f : Fun}
    (h : (function L).Parses L lo hi f k) : Row L lo (Fragment.function f).children k := by
  obtain ⟨-, n, -, -, params, j, hparams, result, i, hresult, es, m, hbody, rfl, rfl⟩ :=
    parses_function.1 h
  have hrow := row_elements (fun _ _ _ _ _ hp => nodeAt_param hhi hp) hparams
  exact (hrow.append ((row_resultType hhi hresult).append (row_body hL hhi hbody))).widen
    (by omega) (Nat.le_refl _)

theorem nodeAt_function (hL : L.Sound) (hhi : hi ≤ L.lexemes.size) {f : Fun}
    (h : (function L).Parses L i hi f j) : NodeAt L (.function f) i j := by
  obtain ⟨hfun, n, -, -, params, j₁, hparams, result, j₂, hresult, es, m, hbody, rfl, rfl⟩ :=
    parses_function.1 h
  have hle := (row_elements (fun _ _ _ _ _ hp => nodeAt_param hhi hp) hparams).le
  have hle' := (row_resultType hhi hresult).le
  have hbounds := bounds_body hL hhi hbody
  exact ⟨⟨.function, hi, Nat.le_of_lt hfun.1, hhi, parses_return h⟩, by omega,
    Nat.le_trans hbounds.2 hhi, rfl⟩

theorem row_functions (hL : L.Sound) (hhi : hi ≤ L.lexemes.size) {rounds : Nat} {fs : List Fun}
    (h : (functions L rounds).Parses L lo hi fs k) : Row L lo (fs.map .function) k := by
  induction rounds generalizing lo fs with
  | zero => cases h
  | succ rounds ih =>
    have hle : lo ≤ L.newlineRun (hi - lo) lo := encloses_newlineRun.le
    rcases functions_succ_cases h with ⟨rfl, rfl⟩ | ⟨hlt, f, j, hf, rest, i, hrest, rfl, rfl⟩
    · exact .nil hle
    · exact .cons hle (nodeAt_function hL hhi hf) (ih hrest)

/-! ## The children of a node -/

/-- The children of an expression are read one behind the other, from lexemes of the expression. -/
theorem row_nodeRule (hL : L.Sound) (hlo : lo ≤ hi) (hhi : hi ≤ L.lexemes.size) {r : Rule Expr}
    (hr : NodeRule L r) {e : Expr} (h : r.Parses L lo hi e k) : Row L lo e.children k := by
  cases hr with
  | literal =>
    obtain ⟨l, -, -, hliteral, rfl⟩ := parses_literal.1 h
    have hnone : e.children = [] := by
      cases htoken : l.token <;> simp [Lexeme.literal?, htoken] at hliteral <;> subst hliteral <;>
        rfl
    rw [hnone]
    exact .nil (Nat.le_succ lo)
  | variableName =>
    obtain ⟨n, -, rfl, rfl⟩ := parses_variableName.1 h
    exact .nil (Nat.le_succ lo)
  | index =>
    obtain ⟨n, hname, hopen, position, c, hposition, -, rfl, rfl⟩ := parses_index.1 h
    -- The name of the list is a node of its own.
    exact .cons (Nat.le_refl lo) (nodeAt_name hhi hname)
      (.single (nodeAt_expr hhi hL hopen.1 hposition) (Nat.le_succ _) (Nat.le_succ c))
  | neg =>
    obtain ⟨hsign, x, j, hx, rfl, rfl⟩ := parses_neg.1 h
    exact .single (nodeAt_expr hhi hL hsign.1 hx) (Nat.le_succ lo) (Nat.le_refl _)
  | not =>
    obtain ⟨hsign, x, j, hx, rfl, rfl⟩ := parses_not.1 h
    exact .single (nodeAt_expr hhi hL hsign.1 hx) (Nat.le_succ lo) (Nat.le_refl _)
  | binary op =>
    obtain ⟨p, hfind, x, hx, y, j, hy, rfl, rfl⟩ := (parses_binary hL hlo hhi).1 h
    obtain ⟨hp, hp', -⟩ := hL.find ⟨hlo, hhi⟩ hfind
    simp only at hp hp'
    -- The left operand fills the window before the operator.
    exact .cons (Nat.le_refl lo) (nodeAt_expr (by omega) hL hp hx)
      (.single (nodeAt_expr hhi hL hp' hy) (Nat.le_succ p) (Nat.le_refl _))
  | parens =>
    obtain ⟨hopen, p, hclosing, x, hx, -, rfl, rfl⟩ := (parses_parens hL hhi).1 h
    obtain ⟨hp, hp'⟩ := hL.closing (w := ⟨lo + 1, hi⟩) ⟨hopen.1, hhi⟩ hclosing
    simp only at hp hp'
    exact .single (nodeAt_expr (by omega) hL hp hx) (Nat.le_succ lo) (Nat.le_succ p)
  | assign =>
    obtain ⟨n, -, hequals, value, j, hvalue, rfl, rfl⟩ := parses_assign.1 h
    exact .single (nodeAt_expr hhi hL hequals.1 hvalue) (by omega) (Nat.le_refl _)
  | call =>
    obtain ⟨n, -, hopen, args, j, hargs, rfl, rfl⟩ := parses_call.1 h
    exact (row_elements (fun _ _ _ _ hlt hx => nodeAt_expr hhi hL (Nat.le_of_lt hlt) hx) hargs).widen
      (by omega) (Nat.le_refl _)
  | store =>
    obtain ⟨n, hname, hopen, position, c, hposition, hclose, hequals, value, j, hvalue, rfl, rfl⟩ :=
      parses_store.1 h
    -- So is the element that is stored into.
    have htarget := parses_index.2 ⟨n, hname, hopen, position, c, hposition, hclose, rfl, rfl⟩
    exact .cons (Nat.le_refl lo) (nodeAt_index hhi hL hlo htarget)
      (.single (nodeAt_expr hhi hL hequals.1 hvalue) (Nat.le_succ _) (Nat.le_refl _))
  | branch =>
    obtain ⟨-, hopen, cond, j, hcond, -, thenBody, i, hthen, helse⟩ := parses_branch.1 h
    have hhead : Row L lo (.expr cond :: thenBody.map .expr) i :=
      .cons (by omega) (nodeAt_expr hhi hL hopen.1 hcond)
        ((row_body hL hhi hthen).widen (Nat.le_succ j) (Nat.le_refl _))
    rcases helse with ⟨helse, elseBody, i', hother, rfl, rfl⟩ | ⟨-, rfl, rfl⟩
    · have hrow := hhead.append ((row_otherwise hL helse.1 hhi hother).widen (Nat.le_succ i)
        (Nat.le_refl _))
      simpa [Expr.children, Expr.parts] using hrow
    · simpa [Expr.children, Expr.parts] using hhead
  | forIn =>
    obtain ⟨-, -, n, -, hin, iterable, j, hiterable, -, loopBody, i, hbody, rfl, rfl⟩ :=
      parses_forIn.1 h
    exact .cons (by omega) (nodeAt_expr hhi hL hin.1 hiterable)
      ((row_body hL hhi hbody).widen (Nat.le_succ j) (Nat.le_refl _))
  | loop =>
    obtain ⟨-, hopen, cond, j, hcond, -, loopBody, i, hbody, rfl, rfl⟩ := parses_loop.1 h
    exact .cons (by omega) (nodeAt_expr hhi hL hopen.1 hcond)
      ((row_body hL hhi hbody).widen (Nat.le_succ j) (Nat.le_refl _))
  | ret =>
    obtain ⟨hreturn, ⟨x, j, hx, rfl, rfl⟩ | ⟨-, rfl, rfl⟩⟩ := parses_ret.1 h
    · exact .single (nodeAt_expr hhi hL hreturn.1 hx) (Nat.le_succ lo) (Nat.le_refl _)
    · exact .nil (Nat.le_succ lo)
  | binding =>
    obtain ⟨mutable, -, n, -, hequals, value, j, hvalue, rfl, rfl⟩ := parses_binding.1 h
    exact .single (nodeAt_expr hhi hL hequals.1 hvalue) (by omega) (Nat.le_refl _)

/-- The children of a node are read one behind the other, from lexemes of the node. -/
theorem row_production (hL : L.Sound) (hlo : lo ≤ hi) (hhi : hi ≤ L.lexemes.size)
    {q : Production} {n : Fragment} (h : (q.rule L).Parses L lo hi n k) :
    Row L lo n.children k := by
  have hnode : ∀ {r : Rule Expr}, NodeRule L r →
      (do return Fragment.expr (← r)).Parses L lo hi n k → Row L lo n.children k := by
    intro r hr h
    obtain ⟨e, rfl, he⟩ := exists_of_return h
    exact row_nodeRule hL hlo hhi hr he
  have hlevel : ∀ {l : Level},
      (do return Fragment.expr (← level l)).Parses L lo hi n k → Row L lo n.children k := by
    intro l h
    obtain ⟨e, rfl, he⟩ := exists_of_return h
    obtain ⟨r, hr, hread⟩ := exists_nodeRule hL hlo hhi he
    exact row_nodeRule hL hlo hhi hr hread
  cases q with
  | program =>
    obtain ⟨p, rfl, hp⟩ := exists_of_return h
    obtain ⟨fs, j, hfs, rfl, rfl⟩ := parses_program.1 hp
    exact row_functions hL hhi hfs
  | function =>
    obtain ⟨f, rfl, hf⟩ := exists_of_return h
    exact row_function hL hhi hf
  | param =>
    obtain ⟨p, rfl, hp⟩ := exists_of_return h
    obtain ⟨_, -, -, t, j, ht, rfl, rfl⟩ := parses_param.1 hp
    exact .single (nodeAt_type hhi (parses_type.1 ht)) (by omega) (Nat.le_refl _)
  | type =>
    obtain ⟨t, rfl, ht⟩ := exists_of_return h
    obtain ⟨_, -, ⟨-, args, j, hargs, rfl, rfl⟩ | ⟨-, rfl, rfl⟩⟩ :=
      parses_typeWithin_succ.1 (parses_type.1 ht)
    · exact (row_elements (fun _ _ _ _ _ harg => nodeAt_type hhi harg) hargs).widen (by omega)
        (Nat.le_refl _)
    · exact .nil (Nat.le_succ lo)
  | body =>
    obtain ⟨es, rfl, hes⟩ := exists_of_return h
    exact row_body hL hhi hes
  | expr | top | math | comparison | short => exact hlevel h
  | control =>
    obtain ⟨e, rfl, he⟩ := exists_of_return h
    rcases parses_control.1 he with he | he | he | he
    · exact row_nodeRule hL hlo hhi .branch he
    · exact row_nodeRule hL hlo hhi .forIn he
    · exact row_nodeRule hL hlo hhi .loop he
    · exact row_nodeRule hL hlo hhi .ret he
  | binding => exact hnode .binding h
  | assign => exact hnode .assign h
  | call => exact hnode .call h
  | store => exact hnode .store h
  | branch => exact hnode .branch h
  | forIn => exact hnode .forIn h
  | loop => exact hnode .loop h
  | ret => exact hnode .ret h
  | neg => exact hnode .neg h
  | not => exact hnode .not h
  | parens => exact hnode .parens h
  | literal => exact hnode .literal h
  | variableName => exact hnode .variableName h
  | index => exact hnode .index h
  | operation op => exact hnode (.binary op) h

theorem NodeAt.row_children (hL : L.Sound) {n : Fragment} (h : NodeAt L n i j) :
    Row L i n.children j := by
  obtain ⟨q, hi, hle, hhi, hread⟩ := h.read
  exact row_production hL hle hhi hread

/-- Every node of a program that is read is read from some lexemes. -/
theorem exists_nodeAt (hL : L.Sound) (hhi : hi ≤ L.lexemes.size) {p : Program}
    (h : (program L).Parses L lo hi p k) {n : Fragment} (hn : p.HasNode n) :
    ∃ i j, NodeAt L n i j := by
  induction hn with
  | function hf =>
    obtain ⟨fs, j, hfs, rfl, rfl⟩ := parses_program.1 h
    obtain ⟨i, j, -, hat, -⟩ := (row_functions hL hhi hfs).exists_nodeAt (List.mem_map_of_mem hf)
    exact ⟨i, j, hat⟩
  | child _ hc ih =>
    -- The lexemes of a child are some of those of its parent.
    obtain ⟨i, j, hat⟩ := ih
    obtain ⟨i', j', -, hat', -⟩ := (hat.row_children hL).exists_nodeAt hc
    exact ⟨i', j', hat'⟩

end Grammar

/-! ## Spans -/

namespace Scan.Tiles

variable {source : List Char} {pos a b : Nat} {ls : List Lexeme} {l l' : Lexeme}

theorem lo_lt_hi (T : Tiles source pos ls) (ha : ls[a]? = some l) :
    l.span.lo < l.span.hi ∧ l.span.hi ≤ source.length :=
  (T.inside l (List.mem_of_getElem? ha)).2

theorem hi_le_lo (T : Tiles source pos ls) (ha : ls[a]? = some l) (hb : ls[b]? = some l')
    (hlt : a < b) : l.span.hi ≤ l'.span.lo := by
  obtain ⟨hla, rfl⟩ := List.getElem?_eq_some_iff.1 ha
  obtain ⟨hlb, rfl⟩ := List.getElem?_eq_some_iff.1 hb
  exact List.pairwise_iff_getElem.1 T.ordered a b hla hlb hlt

/-- Lexemes further on start and end further on. -/
theorem mono (T : Tiles source pos ls) (ha : ls[a]? = some l) (hb : ls[b]? = some l')
    (hle : a ≤ b) : l.span.lo ≤ l'.span.lo ∧ l.span.hi ≤ l'.span.hi := by
  rcases Nat.eq_or_lt_of_le hle with rfl | hlt
  · obtain rfl := Option.some.inj (ha.symm.trans hb)
    exact ⟨Nat.le_refl _, Nat.le_refl _⟩
  · have hbetween := T.hi_le_lo ha hb hlt
    have hl := T.lo_lt_hi ha
    have hl' := T.lo_lt_hi hb
    omega

end Scan.Tiles

namespace Grammar

variable {source : List Char} {pos : Nat} {lexemes : List Lexeme} {lo hi i j i' j' : Nat}

/-- The stretch of some lexemes goes from the first to the last of them. -/
theorem exists_spanOf (hlt : i < j) (hle : j ≤ lexemes.length) :
    ∃ first last, lexemes[i]? = some first ∧ lexemes[j - 1]? = some last ∧
      (Layout.indexed lexemes).spanOf i j = ⟨first.span.lo, last.span.hi⟩ := by
  have hi : i < lexemes.length := by omega
  have hj : j - 1 < lexemes.length := by omega
  refine ⟨lexemes[i], lexemes[j - 1], List.getElem?_eq_getElem hi, List.getElem?_eq_getElem hj, ?_⟩
  rw [Layout.spanOf, if_neg (Nat.not_le.2 hlt)]
  simp [Layout.indexed, hi, hj]

/-- Lexemes among others stand inside of the stretch of the others. -/
theorem spanOf_nested (T : Scan.Tiles source pos lexemes) (hi : i ≤ i') (hlt : i' < j')
    (hj : j' ≤ j) (hle : j ≤ lexemes.length) :
    ((Layout.indexed lexemes).spanOf i j).lo ≤ ((Layout.indexed lexemes).spanOf i' j').lo ∧
      ((Layout.indexed lexemes).spanOf i' j').hi ≤ ((Layout.indexed lexemes).spanOf i j).hi := by
  obtain ⟨first, last, hfirst, hlast, hspan⟩ := exists_spanOf (show i < j by omega) hle
  obtain ⟨first', last', hfirst', hlast', hspan'⟩ :=
    exists_spanOf hlt (show j' ≤ lexemes.length by omega)
  rw [hspan, hspan']
  exact ⟨(T.mono hfirst hfirst' hi).1, (T.mono hlast' hlast (by omega)).2⟩

/-- Lexemes behind others stand behind the stretch of the others. -/
theorem spanOf_behind (T : Scan.Tiles source pos lexemes) (hlt : i < j) (hle : j ≤ i')
    (hlt' : i' < j') (hle' : j' ≤ lexemes.length) :
    ((Layout.indexed lexemes).spanOf i j).hi ≤ ((Layout.indexed lexemes).spanOf i' j').lo := by
  obtain ⟨_, last, -, hlast, hspan⟩ := exists_spanOf hlt (show j ≤ lexemes.length by omega)
  obtain ⟨first', _, hfirst', -, hspan'⟩ := exists_spanOf hlt' hle'
  rw [hspan, hspan']
  exact T.hi_le_lo hlast hfirst' (by omega)

theorem NodeAt.le_length {n : Fragment} (h : NodeAt (Layout.indexed lexemes) n i j) :
    j ≤ lexemes.length := by
  simpa [Layout.indexed] using h.le

/-- Nodes that are read one behind the other stand one behind the other. -/
theorem Row.ordered (T : Scan.Tiles source pos lexemes) {ns : List Fragment}
    (h : Row (Layout.indexed lexemes) lo ns hi) :
    (ns.filterMap Fragment.span?).Pairwise fun s t => s.hi ≤ t.lo := by
  induction h with
  | nil _ => exact .nil
  | cons _ hn hrest ih =>
    rw [List.filterMap_cons_some hn.span]
    refine .cons (fun t ht => ?_) ih
    obtain ⟨c, hc, hspan⟩ := List.mem_filterMap.1 ht
    obtain ⟨i', j', hle, hat, -⟩ := hrest.exists_nodeAt hc
    obtain rfl := Option.some.inj (hat.span.symm.trans hspan)
    exact spanOf_behind T hn.lt hle hat.lt hat.le_length

end Grammar

/-- In the source, the node stands exactly where its lexemes stand. -/
structure Fragment.Placed (source : String) (n : Fragment) (span : Span) : Prop where
  /-- The node is read from some lexemes, and the span goes from the first to the last of them. -/
  read : ∃ (q : Production) (i j hi : Nat) (first last : Lexeme),
    hi ≤ (Scan.lexemes source).length ∧
      q.read (Scan.lexemes source) ⟨i, hi⟩ = .ok (n, ⟨j, hi⟩) ∧ i < j ∧
        (Scan.lexemes source)[i]? = some first ∧ (Scan.lexemes source)[j - 1]? = some last ∧
          span = ⟨first.span.lo, last.span.hi⟩
  /-- It is a stretch of the source that is not empty. -/
  inside : span.lo < span.hi ∧ span.hi ≤ source.length
  /-- Every lexeme is inside of it or outside of it. -/
  uncut : ∀ l ∈ Scan.lexemes source, span.lo ≤ l.span.lo ∧ l.span.hi ≤ span.hi ∨
    l.span.hi ≤ span.lo ∨ span.hi ≤ l.span.lo
  /-- The children stand inside of the node. -/
  nested : ∀ c ∈ n.children, ∃ s, c.span? = some s ∧ span.lo ≤ s.lo ∧ s.hi ≤ span.hi
  /-- The children stand one behind the other. -/
  ordered : (n.children.filterMap Fragment.span?).Pairwise fun s t => s.hi ≤ t.lo

theorem Grammar.NodeAt.placed {source : String} {n : Fragment} {i j : Nat}
    (h : NodeAt (Layout.indexed (Scan.lexemes source)) n i j) :
    n.Placed source ((Layout.indexed (Scan.lexemes source)).spanOf i j) := by
  have T := (Scan.reads_lexemesFrom source.toList 0).tiles
  have hrow := h.row_children (Layout.sound_indexed _)
  obtain ⟨first, last, hfirst, hlast, hspan⟩ := exists_spanOf h.lt h.le_length
  have hlt := h.lt
  have hlo := T.lo_lt_hi hfirst
  have hhi := T.lo_lt_hi hlast
  have hmono := T.mono hfirst hlast (by omega)
  constructor
  case read =>
    obtain ⟨q, hi, hle, hsize, hread⟩ := h.read
    have hlength : hi ≤ (Scan.lexemes source).length := by simpa [Layout.indexed] using hsize
    exact ⟨q, i, j, hi, first, last, hlength, (q.read_eq_ok_iff hle hlength).2 hread, hlt, hfirst,
      hlast, hspan⟩
  case inside =>
    rw [hspan]
    exact ⟨Nat.lt_of_lt_of_le hlo.1 hmono.2, by rw [← String.length_toList]; exact hhi.2⟩
  case uncut =>
    intro l hl
    obtain ⟨a, ha⟩ := List.mem_iff_getElem?.1 hl
    rw [hspan]
    -- The lexeme stands before those of the node, among them or behind them.
    rcases Nat.lt_or_ge a i with hbefore | hle
    · exact .inr (.inl (T.hi_le_lo ha hfirst hbefore))
    · rcases Nat.lt_or_ge a j with hamong | hbehind
      · exact .inl ⟨(T.mono hfirst ha hle).1, (T.mono ha hlast (by omega)).2⟩
      · exact .inr (.inr (T.hi_le_lo hlast ha (by omega)))
  case nested =>
    intro c hc
    obtain ⟨i', j', hle, hat, hle'⟩ := hrow.exists_nodeAt hc
    exact ⟨_, hat.span, spanOf_nested T hle hat.lt hle' h.le_length⟩
  case ordered => exact hrow.ordered T

namespace Program

theorem exists_parses_of_ofLexemes {lexemes : List Lexeme} {p : Program}
    (h : ofLexemes lexemes = .ok p) :
    ∃ k, (Grammar.program (Layout.indexed lexemes)).Parses (Layout.indexed lexemes) 0
      lexemes.length p k := by
  rw [ofLexemes, splitLexemes_eq_eval, wholeWindow] at h
  cases heval : (Grammar.program (Layout.indexed lexemes)).eval (Layout.indexed lexemes)
      ⟨0, lexemes.length⟩ with
  | error e =>
    rw [heval] at h
    cases h
  | ok found =>
    obtain ⟨q, k⟩ := found
    rw [heval] at h
    have hleft : complete (q, lexemes.drop k) = .ok p := h
    cases hdrop : lexemes.drop k with
    | cons l rest =>
      rw [hdrop] at hleft
      cases hleft
    | nil =>
      rw [hdrop] at hleft
      obtain rfl : q = p := Except.ok.inj hleft
      exact ⟨k, heval⟩

/-- Every node of a program, itself aside, stands exactly where the lexemes stand that it is read
from, and its children stand inside of it, one behind the other. -/
theorem node_placed {source : String} {p : Program} (h : Program.ofSource source = .ok p)
    {n : Fragment} (hn : p.HasNode n) : ∃ span, n.span? = some span ∧ n.Placed source span := by
  obtain ⟨k, hread⟩ := exists_parses_of_ofLexemes h
  obtain ⟨i, j, hat⟩ := Grammar.exists_nodeAt (Layout.sound_indexed _)
    (by simp [Layout.indexed]) hread hn
  exact ⟨_, hat.span, hat.placed⟩

/-- A function with a parameter and a type for its results. -/
def signed : Fun where
  span := ⟨0, 17⟩
  name := "f"
  params := [⟨⟨6, 9⟩, "n", .simple ⟨8, 9⟩ "T"⟩]
  result := some (.simple ⟨11, 12⟩ "T")
  body := [.call ⟨13, 16⟩ "g" []]

/-- Whether this is the program of that function, read from fourteen lexemes. -/
def isSigned : Option (Outcome Program) → Bool
  | some (.ok (⟨span, [⟨span', name, [⟨atParam, param, .simple atType type⟩],
      some (.simple atResult result), [.call atCall callee []]⟩]⟩, k)) =>
    span = ⟨0, 17⟩ && span' = ⟨0, 17⟩ && name = "f" && atParam = ⟨6, 9⟩ && param = "n" &&
      atType = ⟨8, 9⟩ && type = "T" && atResult = ⟨11, 12⟩ && result = "T" && atCall = ⟨13, 16⟩ &&
        callee = "g" && k = 14
  | _ => false

theorem eq_of_isSigned {o : Option (Outcome Program)} (h : isSigned o = true) :
    o = some (.ok (⟨⟨0, 17⟩, [signed]⟩, 14)) := by
  unfold isSigned at h
  split at h
  · simp only [Bool.and_eq_true, decide_eq_true_eq] at h
    obtain ⟨⟨⟨⟨⟨⟨⟨⟨⟨⟨⟨rfl, rfl⟩, rfl⟩, rfl⟩, rfl⟩, rfl⟩, rfl⟩, rfl⟩, rfl⟩, rfl⟩, rfl⟩, rfl⟩ := h
    rfl
  · cases h

theorem ofSource_signed : Program.ofSource "fun f(n:T):T{g()}" = .ok ⟨⟨0, 17⟩, [signed]⟩ := by
  have hread : isSigned
      ((Grammar.program (Layout.indexed (Scan.lexemes "fun f(n:T):T{g()}"))).outcome?
        (Layout.indexed (Scan.lexemes "fun f(n:T):T{g()}")) 20
        (wholeWindow (Scan.lexemes "fun f(n:T):T{g()}"))) = true := by decide +kernel
  exact ofLexemes_of_some (ofLexemes?_of_outcome (Nat.le_refl 20) (eq_of_isSigned hread))

theorem node_placed_signed :
    Program.ofSource "fun f(n:T):T{g()}" = .ok ⟨⟨0, 17⟩, [signed]⟩ ∧
      Program.HasNode ⟨⟨0, 17⟩, [signed]⟩ (.function signed) ∧
        (Fragment.function signed).children = [.param ⟨⟨6, 9⟩, "n", .simple ⟨8, 9⟩ "T"⟩,
          .type (.simple ⟨11, 12⟩ "T"), .expr (.call ⟨13, 16⟩ "g" [])] ∧
            (Fragment.function signed).Placed "fun f(n:T):T{g()}" ⟨0, 17⟩ := by
  have hnode : Program.HasNode ⟨⟨0, 17⟩, [signed]⟩ (.function signed) :=
    .function List.mem_cons_self
  obtain ⟨span, hspan, hplaced⟩ := node_placed ofSource_signed hnode
  obtain rfl := Option.some.inj hspan
  exact ⟨ofSource_signed, hnode, rfl, hplaced⟩

end Program

end Scriptlet
