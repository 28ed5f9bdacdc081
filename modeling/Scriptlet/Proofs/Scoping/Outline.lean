import Scriptlet.Proofs.Syntax.Induction
import Scriptlet.Scope

/-!
# What is known of the names in a frame

A declaration may stand inside of an expression, so it takes a look at the whole expression to know
whether it has run.  The operand around it may have been skipped; and where a frame outlives a round
of a loop, a round before may have left the name behind.  An `Outline` says of each name of a frame
what is known of it, and `Expr.behind` how running an expression changes that.  `Expr.uses` asks a
question at every place where a name is used.
-/

namespace Scriptlet

/-! ## Outlines -/

/-- What is known of a name in a frame. -/
inductive Standing
  /-- It is not declared. -/
  | absent
  /-- It is declared. -/
  | bound
  /-- It is declared, unless its declaration was skipped. -/
  | unsure
  /-- It is declared if a round before has declared it. -/
  | stale
deriving DecidableEq

namespace Standing

/-- Whoever knows the first of a name also knows the second. -/
def Implies (a b : Standing) : Prop := a = b ∨ b = .stale ∨ b = .unsure ∧ a ≠ .stale

/-- What is known of a name whose declaration may follow or may be skipped. -/
def doubt : Standing → Standing
  | absent => unsure
  | known => known

/-- What is known of a name behind something that may declare it. -/
def Grows (a b : Standing) : Prop := b = .bound ∨ b = a.doubt

theorem Implies.trans {a b c : Standing} (hab : a.Implies b) (hbc : b.Implies c) :
    a.Implies c := by
  unfold Implies at *
  cases a <;> cases b <;> cases c <;> simp_all

theorem implies_doubt (a : Standing) : a.Implies a.doubt := by
  cases a <;> simp [Implies, doubt]

theorem Grows.implies {a b : Standing} (h : a.Grows b) : b.Implies a.doubt := by
  rcases h with rfl | rfl
  · cases a <;> simp [Implies, doubt]
  · exact .inl rfl

theorem Grows.trans {a b c : Standing} (hab : a.Grows b) (hbc : b.Grows c) : a.Grows c := by
  rcases hab with rfl | rfl
  · exact .inl (hbc.elim id id)
  · refine hbc.imp_right fun hc => hc.trans ?_
    cases a <;> rfl

end Standing

/-- What is known of each name in a frame. -/
abbrev Outline := String → Standing

namespace Outline

/-- A frame with nothing in it. -/
def empty : Outline := fun _ => .absent

/-- A frame with these names in it. -/
def ofNames (names : List String) : Outline := fun x => if x ∈ names then .bound else .absent

/-- The frame of a loop between two rounds, where a round declares these names. -/
def leftover (names : List String) : Outline := fun x => if x ∈ names then .stale else .absent

/-- The frame behind a declaration of `name`. -/
def declare (name : String) (F : Outline) : Outline := fun x => if x = name then .bound else F x

/-- The frame behind something that may declare these names. -/
def doubt (F : Outline) (names : List String) : Outline := fun x =>
  if x ∈ names then (F x).doubt else F x

/-- Whoever knows the first of a frame also knows the second. -/
def Implies (F G : Outline) : Prop := ∀ x, (F x).Implies (G x)

variable {F G : Outline} {names : List String}

theorem Implies.refl (F : Outline) : F.Implies F := fun _ => .inl rfl

theorem Implies.trans {H : Outline} (hFG : F.Implies G) (hGH : G.Implies H) : F.Implies H :=
  fun x => (hFG x).trans (hGH x)

theorem implies_doubt (F : Outline) (names : List String) : F.Implies (F.doubt names) := by
  intro x
  simp only [doubt]
  split
  · exact (F x).implies_doubt
  · exact .inl rfl

/-- The second frame is the first one behind something that may declare these names. -/
def Grows (names : List String) (F G : Outline) : Prop :=
  ∀ x, G x = F x ∨ x ∈ names ∧ (F x).Grows (G x)

theorem Grows.refl (names : List String) (F : Outline) : F.Grows names F := fun _ => .inl rfl

theorem Grows.trans {H : Outline} {more : List String} (hFG : F.Grows names G)
    (hGH : G.Grows more H) : F.Grows (names ++ more) H := by
  intro x
  rcases hFG x with hG | ⟨hx, hG⟩ <;> rcases hGH x with hH | ⟨hx', hH⟩
  · exact .inl (hH.trans hG)
  · exact .inr ⟨List.mem_append_right _ hx', hG ▸ hH⟩
  · exact .inr ⟨List.mem_append_left _ hx, hH ▸ hG⟩
  · exact .inr ⟨List.mem_append_left _ hx, hG.trans hH⟩

/-- The same names may be declared once more. -/
theorem Grows.again {H : Outline} (hFG : F.Grows names G) (hGH : G.Grows names H) :
    F.Grows names H :=
  fun x => ((hFG.trans hGH) x).imp_right fun hx => ⟨(List.mem_append.1 hx.1).elim id id, hx.2⟩

theorem grows_doubt (F : Outline) (names : List String) : F.Grows names (F.doubt names) := by
  intro x
  by_cases hx : x ∈ names
  · exact .inr ⟨hx, .inr (if_pos hx)⟩
  · exact .inl (if_neg hx)

theorem grows_declare (F : Outline) (name : String) : F.Grows [name] (F.declare name) := by
  intro x
  by_cases hx : x = name
  · exact .inr ⟨List.mem_singleton.2 hx, .inl (if_pos hx)⟩
  · exact .inl (if_neg hx)

/-- Behind a declaration no less is known than where it may have been skipped. -/
theorem Grows.implies (h : F.Grows names G) : G.Implies (F.doubt names) := by
  intro x
  rcases h x with hG | ⟨hx, hG⟩
  · rw [hG]
    exact F.implies_doubt names x
  · rw [doubt, if_pos hx]
    exact hG.implies

/-- A name that is bound stays bound. -/
theorem Grows.bound {x : String} (h : F.Grows names G) (hx : F x = .bound) : G x = .bound := by
  rcases h x with hG | ⟨-, hG | hG⟩
  · rw [hG, hx]
  · exact hG
  · rw [hG, hx]
    rfl

theorem Grows.eq_of_nil (h : F.Grows [] G) : G = F := by
  funext x
  rcases h x with hG | ⟨hx, -⟩
  · exact hG
  · cases hx

theorem empty_implies_leftover (names : List String) : empty.Implies (leftover names) := by
  intro x
  by_cases hx : x ∈ names <;> simp [empty, leftover, hx, Standing.Implies]

/-- At the end of a round nothing is known that was not known between the rounds. -/
theorem round_implies_leftover (name : String) (names : List String) :
    (((leftover (name :: names)).declare name).doubt names).Implies (leftover (name :: names)) := by
  intro x
  by_cases hx : x = name
  · subst hx
    by_cases hmem : x ∈ names <;>
      simp [doubt, declare, leftover, hmem, Standing.doubt, Standing.Implies]
  · by_cases hmem : x ∈ names <;>
      simp [doubt, declare, leftover, hx, hmem, Standing.doubt, Standing.Implies]

end Outline

/-! ## Expressions -/

/-- Whether the right operand may be skipped. -/
def BinOp.isConnective : BinOp → Bool
  | .and | .or => true
  | _ => false

namespace Expr

mutual

/-- The names that an expression may declare in the frame around it. -/
def declared : Expr → List String
  | .int .. | .bool .. | .char .. | .str .. | .var .. | .returnUnit .. => []
  | .index _ _ e | .neg _ e | .not _ e | .parens _ e | .assign _ _ e
  | .returnValue _ e => e.declared
  | .binary _ _ l r => l.declared ++ r.declared
  | .declare _ _ name value => value.declared ++ [name]
  | .call _ _ args => declaredAll args
  | .store _ _ _ position value => position.declared ++ value.declared
  -- What a block declares is gone behind the block.
  | .branch _ e _ _ | .forIn _ _ e _ | .loop _ e _ => e.declared

/-- The names that several expressions may declare in the frame around them. -/
def declaredAll : List Expr → List String
  | [] => []
  | e :: es => e.declared ++ declaredAll es

end

mutual

/-- What is known of the frame around an expression once it has been run. -/
def behind (F : Outline) : Expr → Outline
  | .int .. | .bool .. | .char .. | .str .. | .var .. | .returnUnit .. => F
  | .index _ _ e | .neg _ e | .not _ e | .parens _ e | .assign _ _ e
  | .returnValue _ e => e.behind F
  | .binary _ op l r =>
    if op.isConnective then (l.behind F).doubt r.declared else r.behind (l.behind F)
  | .declare _ _ name value => (value.behind F).declare name
  | .call _ _ args => behindAll F args
  | .store _ _ _ position value => value.behind (position.behind F)
  | .branch _ e _ _ | .forIn _ _ e _ => e.behind F
  -- The condition may have been run before.
  | .loop _ cond _ => cond.behind (F.doubt cond.declared)

/-- What is known of the frame around several expressions once they have been run. -/
def behindAll (F : Outline) : List Expr → Outline
  | [] => F
  | e :: es => behindAll (e.behind F) es

end

/-- What is known of the frame of a loop at the start of a round. -/
def roundStart (name : String) (body : List Expr) : Outline :=
  (Outline.leftover (name :: declaredAll body)).declare name

mutual

/-- Whether `ok` holds of every name that is used in an expression, with what is known of the frames
there, the innermost first. -/
def uses (ok : List Outline → String → Bool) (M : List Outline) (F : Outline) : Expr → Bool
  | .int .. | .bool .. | .char .. | .str .. | .returnUnit .. => true
  | .var _ name => ok (F :: M) name
  | .index _ base position => ok (F :: M) base.text && position.uses ok M F
  | .neg _ e | .not _ e | .parens _ e | .declare _ _ _ e | .returnValue _ e => e.uses ok M F
  | .assign _ name value => value.uses ok M F && ok (value.behind F :: M) name
  | .binary _ _ l r => l.uses ok M F && r.uses ok M (l.behind F)
  | .call _ _ args => usesAll ok M F args
  | .store _ _ base position value =>
    ok (F :: M) base.text && position.uses ok M F && value.uses ok M (position.behind F) &&
      -- A text is replaced only at the end, where the variable is looked up again.
      ok (value.behind (position.behind F) :: M) base.text
  | .branch _ cond body otherwise =>
    cond.uses ok M F && usesAll ok (cond.behind F :: M) .empty body &&
      usesAll ok (cond.behind F :: M) .empty otherwise
  | .forIn _ name iterable body =>
    iterable.uses ok M F && usesAll ok (iterable.behind F :: M) (roundStart name body) body
  | .loop _ cond body =>
    cond.uses ok M (F.doubt cond.declared) &&
      usesAll ok (cond.behind (F.doubt cond.declared) :: M) .empty body

/-- Whether `ok` holds of every name that is used in several expressions. -/
def usesAll (ok : List Outline → String → Bool) (M : List Outline) (F : Outline) : List Expr → Bool
  | [] => true
  | e :: es => e.uses ok M F && usesAll ok M (e.behind F) es

end

/-! ## Expressions keep what is known -/

theorem grows_behindAll {es : List Expr}
    (ih : ∀ e ∈ es, ∀ F : Outline, F.Grows e.declared (e.behind F)) (F : Outline) :
    F.Grows (declaredAll es) (behindAll F es) := by
  induction es generalizing F with
  | nil => exact .refl _ F
  | cons e es ihes =>
    exact (ih e List.mem_cons_self F).trans
      (ihes (fun x hx => ih x (List.mem_cons_of_mem _ hx)) (e.behind F))

/-- An expression changes what is known of the names that it declares, and of no others. -/
theorem grows_behind (e : Expr) : ∀ F : Outline, F.Grows e.declared (e.behind F) := by
  induction e using Expr.induction with
  | int | bool | char | str | var | returnUnit => exact Outline.Grows.refl _
  | index | neg | not | parens | assign | returnValue => assumption
  | branch s cond body otherwise ihc => exact ihc
  | forIn s name iterable body ihi => exact ihi
  | binary s op l r ihl ihr =>
    intro F
    rw [behind]
    split
    · exact (ihl F).trans (Outline.grows_doubt _ _)
    · exact (ihl F).trans (ihr _)
  | declare s mutable name value ih =>
    intro F
    exact (ih F).trans (Outline.grows_declare _ _)
  | call s name args ih => exact grows_behindAll ih
  | store s target base position value ihp ihv =>
    intro F
    exact (ihp F).trans (ihv _)
  | loop s cond body ihc =>
    intro F
    exact (F.grows_doubt _).again (ihc _)

/-- Behind the condition of a loop no less is known than before each round. -/
theorem behind_cond_implies (cond : Expr) (F : Outline) :
    (cond.behind (F.doubt cond.declared)).Implies (F.doubt cond.declared) :=
  ((F.grows_doubt _).again (cond.grows_behind _)).implies

/-- Behind an operation no less is known once its right operand has been run. -/
theorem behind_right_implies (span : Span) (op : BinOp) (l r : Expr) (F : Outline) :
    (r.behind (l.behind F)).Implies ((Expr.binary span op l r).behind F) := by
  rw [behind]
  split
  · exact (r.grows_behind _).implies
  · exact .refl _

/-- Behind an operation whose right operand was skipped no less is known. -/
theorem behind_left_implies (span : Span) {op : BinOp} (hop : op.isConnective = true) (l r : Expr)
    (F : Outline) : (l.behind F).Implies ((Expr.binary span op l r).behind F) := by
  rw [behind, if_pos hop]
  exact (l.behind F).implies_doubt _

/-- A round leaves what is known between rounds. -/
theorem behindAll_roundStart (name : String) (body : List Expr) :
    (behindAll (roundStart name body) body).Implies
      (.leftover (name :: declaredAll body)) :=
  (grows_behindAll (fun e _ => e.grows_behind) _).implies.trans (Outline.round_implies_leftover _ _)

end Expr

end Scriptlet
