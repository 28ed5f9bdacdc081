import Scriptlet.Proofs.Grammar.Operands

/-!
# Chains of operators

A `Chain` is operands with operators between them.  Its `tree` is defined without any rule of the
grammar: among the operators that occur, the one that binds loosest is chosen by `BinOp.ranking`, and
the chain is cut at its first occurrence.  This is how chains are read: `Chain.read_expr`.
-/

namespace Scriptlet

open Token

/-- Lexemes that are an operand on their own. -/
structure Operand where
  /-- The lexemes of the operand. -/
  lexemes : List Lexeme
  /-- The expression that they are. -/
  node : Expr
  /-- They are read as this expression. -/
  whole : node.ReadFrom lexemes
  /-- It is a literal, a variable, an element, a call, or an expression in parentheses. -/
  form : node.isOperand = true
  /-- In an element, operators stand only inside of parentheses. -/
  clear : ∀ {span base position}, node = .index span base position →
    ∀ op : BinOp, Clear op.token (lexemes.map Lexeme.token)

/-- A literal or a name is an operand. -/
def Operand.ofAtom (l : Lexeme) (e : Expr) (h : l.atom? = some e) : Operand where
  lexemes := [l]
  node := e
  whole := Expr.readFrom_atom h
  form := by
    cases htoken : l.token <;> simp [Lexeme.atom?, Lexeme.literal?, htoken] at h <;> subst h <;> rfl
  clear := by
    rintro span base position rfl
    cases htoken : l.token <;> simp [Lexeme.atom?, Lexeme.literal?, htoken] at h

/-- An operator and the operand behind it. -/
structure Link where
  /-- The operator. -/
  op : BinOp
  /-- Its lexeme. -/
  sign : Lexeme
  /-- The lexeme spells the operator. -/
  spelled : sign.token = op.token
  /-- The operand behind it. -/
  operand : Operand

namespace Link

/-- The lexemes of links. -/
def lexemesOf (links : List Link) : List Lexeme :=
  links.flatMap fun link => link.sign :: link.operand.lexemes

theorem lexemesOf_cons (link : Link) (links : List Link) :
    lexemesOf (link :: links) = link.sign :: (link.operand.lexemes ++ lexemesOf links) := rfl

/-- The links before the first one with the operator `op`, that link, and the links behind it. -/
def cut? (op : BinOp) : List Link → Option (List Link × Link × List Link)
  | [] => none
  | link :: links =>
    if link.op = op then some ([], link, links)
    else (cut? op links).map fun (before, found, after) => (link :: before, found, after)

theorem cut?_eq_some {op : BinOp} {links before after : List Link} {link : Link}
    (h : cut? op links = some (before, link, after)) :
    links = before ++ link :: after ∧ link.op = op ∧ ∀ l ∈ before, l.op ≠ op := by
  induction links generalizing before with
  | nil => cases h
  | cons first links ih =>
    rw [cut?] at h
    split at h
    · rename_i hop
      obtain ⟨rfl, rfl, rfl⟩ : [] = before ∧ first = link ∧ links = after := by simpa using h
      exact ⟨rfl, hop, by simp⟩
    · rename_i hop
      obtain ⟨⟨before', _, _⟩, hcut, heq⟩ := Option.map_eq_some_iff.1 h
      obtain ⟨rfl, rfl, rfl⟩ := by simpa using heq
      obtain ⟨rfl, hfound, hbefore⟩ := ih hcut
      exact ⟨rfl, hfound, List.forall_mem_cons.2 ⟨hop, hbefore⟩⟩

theorem cut?_eq_none {op : BinOp} {links : List Link} (h : cut? op links = none) :
    ∀ l ∈ links, l.op ≠ op := by
  induction links with
  | nil => simp
  | cons first links ih =>
    rw [cut?] at h
    split at h
    · cases h
    · rename_i hop
      exact List.forall_mem_cons.2 ⟨hop, ih (Option.map_eq_none_iff.1 h)⟩

/-- Where links are cut: at the first occurrence of the operator that binds loosest. -/
def loosest? (links : List Link) : Option (List Link × Link × List Link) :=
  BinOp.ranking.findSome? fun op => cut? op links

/-- The cut is at the first occurrence of an operator, and none that binds looser occurs at all. -/
theorem loosest?_eq_some {links before after : List Link} {link : Link}
    (h : loosest? links = some (before, link, after)) :
    links = before ++ link :: after ∧ (∀ l ∈ before, l.op ≠ link.op) ∧
      ∃ looser tighter, BinOp.ranking = looser ++ link.op :: tighter ∧
        ∀ op ∈ looser, ∀ l ∈ links, l.op ≠ op := by
  obtain ⟨looser, op, tighter, hranking, hcut, hlooser⟩ := List.findSome?_eq_some_iff.1 h
  obtain ⟨hlinks, rfl, hbefore⟩ := cut?_eq_some hcut
  exact ⟨hlinks, hbefore, looser, tighter, hranking, fun op hop => cut?_eq_none (hlooser op hop)⟩

/-- Links without any operator are none. -/
theorem loosest?_eq_none {links : List Link} (h : loosest? links = none) : links = [] := by
  cases links with
  | nil => rfl
  | cons link links =>
    have hcut := List.findSome?_eq_none_iff.1 h link.op link.op.mem_ranking
    exact absurd rfl (cut?_eq_none hcut link List.mem_cons_self)

end Link

/-- Operands with operators between them. -/
structure Chain where
  /-- The first operand. -/
  first : Operand
  /-- The operators, each with the operand behind it. -/
  links : List Link

namespace Chain

/-- The lexemes of a chain. -/
def lexemes (c : Chain) : List Lexeme := c.first.lexemes ++ Link.lexemesOf c.links

/-- The tree of a chain: the node of its only operand, or else the node of the operator at which it is
cut, with the trees of both sides. -/
def tree (c : Chain) : Expr :=
  match _hcut : Link.loosest? c.links with
  | none => c.first.node
  | some (before, link, after) =>
    let left := tree ⟨c.first, before⟩
    let right := tree ⟨link.operand, after⟩
    .binary ⟨left.span.lo, right.span.hi⟩ link.op left right
termination_by c.links.length
decreasing_by
  all_goals
    obtain ⟨hlinks, -⟩ := Link.loosest?_eq_some _hcut
    simp only [hlinks, List.length_append, List.length_cons]
    omega

theorem tree_nil (first : Operand) : tree ⟨first, []⟩ = first.node := by
  rw [tree]
  rfl

theorem tree_of_loosest (first : Operand) {links before after : List Link} {link : Link}
    (h : Link.loosest? links = some (before, link, after)) :
    tree ⟨first, links⟩ =
      .binary ⟨(tree ⟨first, before⟩).span.lo, (tree ⟨link.operand, after⟩).span.hi⟩ link.op
        (tree ⟨first, before⟩) (tree ⟨link.operand, after⟩) := by
  rw [tree]
  split
  · rename_i hnone
    cases hnone.symm.trans h
  · rename_i hsome
    obtain ⟨rfl, rfl, rfl⟩ : _ = before ∧ _ = link ∧ _ = after := by
      simpa using hsome.symm.trans h
    rfl

/-- A chain of two operands. -/
theorem tree_pair (first : Operand) (link : Link) :
    tree ⟨first, [link]⟩ =
      .binary ⟨first.node.span.lo, link.operand.node.span.hi⟩ link.op first.node
        link.operand.node := by
  have hcut : Link.loosest? [link] = some ([], link, []) := by
    cases hop : link.op <;> simp [Link.loosest?, BinOp.ranking, Link.cut?, hop]
  rw [tree_of_loosest first hcut, tree_nil, tree_nil]

end Chain

/-! ## Chains in a window -/

namespace Grammar

open Rule Layout

variable {L : Layout} {lo k hi : Nat}

/-- From lexeme `lo` up to `k` stands an operand. -/
structure OperandAt (L : Layout) (x : Expr) (lo k : Nat) : Prop where
  parses : (level .expr).Parses L lo k x k
  framed : L.Framed lo x k
  clear : ∀ op : BinOp, ∃ ts, L.Spells lo k ts ∧ Clear op.token ts

/-- From lexeme `lo` up to `hi` stand operators, each with its operand behind it. -/
inductive LinksAt (L : Layout) : (lo : Nat) → List Link → (hi : Nat) → Prop
  | nil {lo : Nat} : LinksAt L lo [] lo
  | cons {lo k hi : Nat} {link : Link} {links : List Link} : L.At lo link.op.token →
      OperandAt L link.operand.node (lo + 1) k → LinksAt L k links hi → LinksAt L lo (link :: links) hi

namespace LinksAt

theorem le {links : List Link} (h : LinksAt L lo links hi) : lo ≤ hi := by
  induction h with
  | nil => exact Nat.le_refl _
  | cons _ hoperand _ ih =>
    have hlt := hoperand.framed.lt
    omega

/-- Behind the operand before them, links start with an operator. -/
theorem next {links : List Link} (h : LinksAt L lo links hi) (hne : links ≠ []) :
    lo < hi ∧ ∃ op : BinOp, L.At lo op.token := by
  cases h with
  | nil => exact absurd rfl hne
  | cons hat hoperand hrest =>
    have hlt := hoperand.framed.lt
    have hle := hrest.le
    exact ⟨by omega, _, hat⟩

theorem append {before after : List Link} (h : LinksAt L lo (before ++ after) hi) :
    ∃ p, LinksAt L lo before p ∧ LinksAt L p after hi := by
  induction before generalizing lo with
  | nil => exact ⟨lo, .nil, h⟩
  | cons link before ih =>
    cases h with
    | cons hat hoperand hrest =>
      obtain ⟨p, hbefore, hafter⟩ := ih hrest
      exact ⟨p, .cons hat hoperand hbefore, hafter⟩

/-- Outside of parentheses, only the operators of the links occur. -/
theorem exists_clear {links : List Link} (h : LinksAt L lo links hi) (hhi : hi ≤ L.lexemes.size)
    {op : BinOp} (hop : ∀ l ∈ links, l.op ≠ op) : ∃ ts, L.Spells lo hi ts ∧ Clear op.token ts := by
  induction h with
  | @nil lo => exact ⟨[], ⟨Nat.le_refl lo, hhi, by simp⟩, .nil⟩
  | @cons _ _ _ link _ hat hoperand hrest ih =>
    obtain ⟨hne, hops⟩ := List.forall_mem_cons.1 hop
    obtain ⟨ts, hspells, hclear⟩ := hoperand.clear op
    obtain ⟨us, hspells', hclear'⟩ := ih hhi hops
    refine ⟨_, hat.spells.join (hspells.join hspells'), ?_⟩
    exact .cons link.op.nesting_token (fun heq => hne (BinOp.token_inj heq)) (hclear.append hclear')

end LinksAt

/-- An operator that occurs nowhere in a chain is not found in it. -/
theorem find?_chain_none (hS : L.Scans) {x : Expr} {links : List Link} (hfirst : OperandAt L x lo k)
    (hlinks : LinksAt L k links hi) (hhi : hi ≤ L.lexemes.size) {op : BinOp}
    (hop : ∀ l ∈ links, l.op ≠ op) : L.find? op.token ⟨lo, hi⟩ = none := by
  obtain ⟨ts, hspells, hclear⟩ := hfirst.clear op
  obtain ⟨us, hspells', hclear'⟩ := hlinks.exists_clear hhi hop
  exact hS.find?_eq_none (hspells.join hspells') (hclear.append hclear')

/-- Two stretches of source and what stands between them. -/
theorem spanOf_join {p q : Nat} (hp : lo < p) (hq : q < hi) (hlt : lo < hi) :
    (⟨(L.spanOf lo p).lo, (L.spanOf q hi).hi⟩ : Span) = L.spanOf lo hi := by
  rw [spanOf, if_neg (Nat.not_le.2 hp), spanOf, if_neg (Nat.not_le.2 hq), spanOf,
    if_neg (Nat.not_le.2 hlt)]

/-- Chains are read as their trees. -/
theorem parses_chain (hL : L.Sound) (hS : L.Scans) {first : Operand} {links : List Link}
    (hfirst : OperandAt L first.node lo k) (hlinks : LinksAt L k links hi)
    (hhi : hi ≤ L.lexemes.size) :
    (level .expr).Parses L lo hi (Chain.tree ⟨first, links⟩) hi := by
  -- Both sides of a cut have fewer links.
  induction hn : links.length using Nat.strong_induction_on generalizing first links lo k hi with
  | _ n ih =>
    subst hn
    cases hcut : Link.loosest? links with
    | none =>
      obtain rfl := Link.loosest?_eq_none hcut
      cases hlinks with
      | nil =>
        rw [Chain.tree_nil]
        exact hfirst.parses
    | some found =>
      obtain ⟨before, link, after⟩ := found
      obtain ⟨rfl, hbefore, looser, tighter, hranking, hlooser⟩ := Link.loosest?_eq_some hcut
      obtain ⟨p, hleft, hrest⟩ := hlinks.append
      cases hrest with
      | @cons _ j _ _ _ hat hoperand hright =>
        have hlo := hfirst.framed.lt
        have hkp := hleft.le
        have hpj := hoperand.framed.lt
        have hjhi := hright.le
        have hreadl := ih before.length (by simp) hfirst hleft (by omega) rfl
        have hreadr := ih after.length (by simp; omega) hoperand hright hhi rfl
        -- Neither the first operand nor what follows it holds the operator before the cut.
        obtain ⟨ts, hspells, hclear⟩ := hfirst.clear link.op
        obtain ⟨us, hspells', hclear'⟩ := hleft.exists_clear (by omega) hbefore
        have hfind := hS.find?_eq_some (hspells.join hspells') (hclear.append hclear') hat
          (by omega) hhi
        have hspan := spanOf_join (L := L) (show lo < p by omega) (show p + 1 < hi by omega)
          (show lo < hi by omega)
        rw [← span_level hL (by omega) (by omega) hreadl, ← span_level hL (by omega) hhi hreadr]
          at hspan
        have hbinary : (binary L link.op).Parses L lo hi
            (Chain.tree ⟨first, before ++ link :: after⟩) hi := by
          rw [parses_binary hL (by omega) hhi, Chain.tree_of_loosest first hcut, hspan]
          exact ⟨p, hfind, _, hreadl, _, hi, hreadr, rfl, rfl⟩
        obtain ⟨hlt, next, hnext⟩ := hlinks.next (by simp)
        apply hfirst.framed.parses_of_binary hL hlt hhi hnext hranking _ hbinary
        intro op hop
        rw [fails_iff]
        intro e j h
        obtain ⟨p', hfind', -⟩ := (parses_binary hL (by omega) hhi).1 h
        rw [find?_chain_none hS hfirst hlinks hhi (hlooser op hop)] at hfind'
        cases hfind'

/-! ## Chains of lexemes -/

section

variable (before after : List Lexeme)

theorem at_indexed (l : Lexeme) :
    (Layout.indexed (before ++ l :: after)).At before.length l.token :=
  ⟨l, by simp [Layout.indexed], rfl⟩

theorem spells_indexed (lexemes : List Lexeme) :
    (Layout.indexed (before ++ lexemes ++ after)).Spells before.length
      (before.length + lexemes.length) (lexemes.map Lexeme.token) where
  start := Nat.le_add_right _ _
  stop := by simp [Layout.indexed]
  tokens_eq := by simp [Layout.indexed]

theorem operandAt_indexed (o : Operand) :
    OperandAt (Layout.indexed (before ++ o.lexemes ++ after)) o.node before.length
      (before.length + o.lexemes.length) := by
  have hread := o.whole.parses before after
  have hspells := spells_indexed before after o.lexemes
  have hframed := framed_of_parses (sound_indexed _) hspells.start hspells.stop hread o.form
  refine ⟨hread, hframed, fun op => hframed.exists_clear hspells.stop op ?_⟩
  exact fun hindex => ⟨_, hspells, o.clear hindex op⟩

theorem linksAt_indexed (links : List Link) :
    LinksAt (Layout.indexed (before ++ Link.lexemesOf links ++ after)) before.length links
      (before.length + (Link.lexemesOf links).length) := by
  induction links generalizing before with
  | nil => exact .nil
  | cons link links ih =>
    have hsign := at_indexed before (link.operand.lexemes ++ (Link.lexemesOf links ++ after))
      link.sign
    have hoperand := operandAt_indexed (before ++ [link.sign]) (Link.lexemesOf links ++ after)
      link.operand
    have hrest := ih (before ++ link.sign :: link.operand.lexemes)
    simp only [List.length_append, List.length_cons, List.length_nil, Nat.zero_add] at hoperand hrest
    have hlength : before.length + (Link.lexemesOf (link :: links)).length =
        before.length + (link.operand.lexemes.length + 1) + (Link.lexemesOf links).length := by
      rw [Link.lexemesOf_cons, List.length_cons, List.length_append]
      omega
    have hend : before.length + (link.operand.lexemes.length + 1) =
        before.length + 1 + link.operand.lexemes.length := by omega
    rw [hlength]
    -- The same lexemes are put together in three ways.
    rw [Link.lexemesOf_cons]
    simp only [List.append_assoc, List.cons_append, List.nil_append] at hsign hoperand hrest ⊢
    rw [link.spelled] at hsign
    rw [hend] at hrest ⊢
    exact .cons hsign hoperand hrest

end

end Grammar

namespace Chain

theorem parses_indexed (c : Chain) (before after : List Lexeme) :
    (Rule.level .expr).Parses (Layout.indexed (before ++ c.lexemes ++ after)) before.length
      (before.length + c.lexemes.length) c.tree (before.length + c.lexemes.length) := by
  have hfirst := Grammar.operandAt_indexed before (Link.lexemesOf c.links ++ after) c.first
  have hlinks := Grammar.linksAt_indexed (before ++ c.first.lexemes) after c.links
  have hlength : (before ++ c.first.lexemes).length + (Link.lexemesOf c.links).length =
      before.length + c.lexemes.length := by
    simp only [lexemes, List.length_append, Nat.add_assoc]
  rw [hlength, List.length_append] at hlinks
  simp only [List.append_assoc] at hfirst hlinks
  rw [lexemes, List.append_assoc, List.append_assoc]
  apply Grammar.parses_chain (Layout.sound_indexed _) (Layout.scans_indexed _) hfirst hlinks
  simp [Layout.indexed, lexemes]

theorem readFrom (c : Chain) : c.tree.ReadFrom c.lexemes := by
  apply (Production.read_expr_iff (Nat.zero_le _) (Nat.le_refl _)).2
  simpa using c.parses_indexed [] []

/-- A chain that fills a window is read as its tree, whatever stands before and behind the window. -/
theorem read_expr (c : Chain) (before after : List Lexeme) :
    Production.expr.read (before ++ c.lexemes ++ after)
        ⟨before.length, before.length + c.lexemes.length⟩ =
      .ok (.expr c.tree,
        ⟨before.length + c.lexemes.length, before.length + c.lexemes.length⟩) := by
  apply (Production.read_expr_iff (Nat.le_add_right _ _) (by simp)).2
  exact c.parses_indexed before after

/-- The link `- c`, as it stands in `a < b - c`. -/
def minusLink : Link where
  op := .sub
  sign := ⟨.symbol .minus, ⟨6, 7⟩, "-"⟩
  spelled := rfl
  operand := .ofAtom ⟨.ident "c", ⟨8, 9⟩, "c"⟩ (.var ⟨8, 9⟩ "c") rfl

/-- The link `< b`. -/
def lessLink : Link where
  op := .less
  sign := ⟨.symbol .less, ⟨2, 3⟩, "<"⟩
  spelled := rfl
  operand := .ofAtom ⟨.ident "b", ⟨4, 5⟩, "b"⟩ (.var ⟨4, 5⟩ "b") rfl

/-- The chain `a < b - c`. -/
def lessMinus : Chain where
  first := .ofAtom ⟨.ident "a", ⟨0, 1⟩, "a"⟩ (.var ⟨0, 1⟩ "a") rfl
  links := [lessLink, minusLink]

/-- A difference is cut before a comparison. -/
theorem tree_lessMinus :
    lessMinus.tree = .binary ⟨0, 9⟩ .sub
      (.binary ⟨0, 5⟩ .less (.var ⟨0, 1⟩ "a") (.var ⟨4, 5⟩ "b")) (.var ⟨8, 9⟩ "c") := by
  have hcut : Link.loosest? [lessLink, minusLink] = some ([lessLink], minusLink, []) := rfl
  have htree := tree_of_loosest lessMinus.first hcut
  rw [tree_pair, tree_nil] at htree
  exact htree

theorem read_expr_lessMinus :
    Production.expr.read lessMinus.lexemes ⟨0, 5⟩ =
      .ok (.expr (.binary ⟨0, 9⟩ .sub
        (.binary ⟨0, 5⟩ .less (.var ⟨0, 1⟩ "a") (.var ⟨4, 5⟩ "b")) (.var ⟨8, 9⟩ "c")), ⟨5, 5⟩) := by
  rw [← tree_lessMinus]
  exact lessMinus.read_expr [] []

end Chain

end Scriptlet
