import Scriptlet.Proofs.Typing.Decides

/-!
# What checking comes across

Checking an expression checks its parts, each from the state that the parts before it have left.
`Check.Visits` says which expressions are checked on the way, and from which states.  Where checking
is quiet as a whole, it is quiet at every expression it comes across.
-/

namespace Scriptlet.Check

/-- The state that a step leaves. -/
def after {α : Type} (act : Check α) (c : Checking) : Checking := (act.run c).2

/-- The state at the start of a block. -/
def opened (c : Checking) : Checking := { c with scope := c.scope.push }

/-- Checking the first expression from the first state goes on to check the second expression, which
is a part of it, from the second state. -/
inductive Enters (Γ : Context) : Checking → Expr → Checking → Expr → Prop
  | index {c : Checking} {s : Span} {base : Name} {position : Expr} :
      Enters Γ c (.index s base position) (after (variableType base.span base.text) c) position
  | neg {c : Checking} {s : Span} {e : Expr} : Enters Γ c (.neg s e) c e
  | not {c : Checking} {s : Span} {e : Expr} : Enters Γ c (.not s e) c e
  | parens {c : Checking} {s : Span} {e : Expr} : Enters Γ c (.parens s e) c e
  | left {c : Checking} {s : Span} {op : BinOp} {l r : Expr} : Enters Γ c (.binary s op l r) c l
  | right {c : Checking} {s : Span} {op : BinOp} {l r : Expr} :
      Enters Γ c (.binary s op l r) (after (expr Γ l) c) r
  | declared {c : Checking} {s : Span} {mutable : Bool} {name : String} {value : Expr} :
      Enters Γ c (.declare s mutable name value) c value
  | assigned {c : Checking} {s : Span} {name : String} {value : Expr} :
      Enters Γ c (.assign s name value) c value
  | argument {c : Checking} {s : Span} {name : String} {before rest : List Expr} {e : Expr} :
      Enters Γ c (.call s name (before ++ e :: rest)) (after (exprs Γ before) c) e
  | position {c : Checking} {s target : Span} {base : Name} {position value : Expr} :
      Enters Γ c (.store s target base position value)
        (after (variableType base.span base.text) c) position
  | stored {c : Checking} {s target : Span} {base : Name} {position value : Expr} :
      Enters Γ c (.store s target base position value)
        (after (do
          let b ← variableType base.span base.text
          let p ← expr Γ position
          elementType target b p) c) value
  | tested {c : Checking} {s : Span} {cond : Expr} {body otherwise : List Expr} :
      Enters Γ c (.branch s cond body otherwise) c cond
  | taken {c : Checking} {s : Span} {cond : Expr} {before rest otherwise : List Expr} {e : Expr} :
      Enters Γ c (.branch s cond (before ++ e :: rest) otherwise)
        (after (exprs Γ before) (opened (after (do condition s (← expr Γ cond)) c))) e
  | otherwise {c : Checking} {s : Span} {cond : Expr} {body before rest : List Expr} {e : Expr} :
      Enters Γ c (.branch s cond body (before ++ e :: rest))
        (after (exprs Γ before) (opened (after (do
          let _ ← condition s (← expr Γ cond)
          inBlock (exprs Γ body)) c))) e
  | iterable {c : Checking} {s : Span} {name : String} {iterable : Expr} {body : List Expr} :
      Enters Γ c (.forIn s name iterable body) c iterable
  | round {c : Checking} {s : Span} {name : String} {iterable : Expr} {before rest : List Expr}
      {e : Expr} {t u : Ty} :
      ((expr Γ iterable).run c).1 = some t → t.elem? = some u →
      Enters Γ c (.forIn s name iterable (before ++ e :: rest))
        (after (do declare name u; exprs Γ before) (opened (after (expr Γ iterable) c))) e
  | held {c : Checking} {s : Span} {cond : Expr} {body : List Expr} :
      Enters Γ c (.loop s cond body) c cond
  | repeated {c : Checking} {s : Span} {cond : Expr} {before rest : List Expr} {e : Expr} :
      Enters Γ c (.loop s cond (before ++ e :: rest))
        (after (exprs Γ before) (opened (after (do condition s (← expr Γ cond)) c))) e
  | returned {c : Checking} {s : Span} {value : Expr} : Enters Γ c (.returnValue s value) c value

/-- Checking the first expression from the first state comes across the second expression in the
second state. -/
inductive Visits (Γ : Context) : Checking → Expr → Checking → Expr → Prop
  | here {c : Checking} {e : Expr} : Visits Γ c e c e
  | step {c c' c'' : Checking} {e e' e'' : Expr} :
      Enters Γ c e c' e' → Visits Γ c' e' c'' e'' → Visits Γ c e c'' e''

/-- The state that a quiet step leaves. -/
theorem Quiet.after_eq {α : Type} {act : Check α} {c c' : Checking} {a : α}
    (h : Quiet act c a c') : after act c = c' :=
  congrArg Prod.snd h.1

/-- There is a frame, and checking the expression is quiet. -/
def Fine (Γ : Context) (c : Checking) (e : Expr) : Prop :=
  (∃ F Δ, c.scope = F :: Δ) ∧ ∃ r c', Quiet (expr Γ e) c r c'

/-- Quiet checking of several expressions is quiet at each of them. -/
theorem fine_of_quiet_exprs {Γ : Context} {before rest : List Expr} {e : Expr} {c c' : Checking}
    {rs : List (Option Ty)} {F : Frame Ty} {Δ : Scope Ty} (hs : c.scope = F :: Δ)
    (h : Quiet (exprs Γ (before ++ e :: rest)) c rs c') :
    Fine Γ (after (exprs Γ before) c) e := by
  induction before generalizing c rs F with
  | nil =>
    obtain ⟨r, c₁, he, -⟩ := quiet_bind.1 h
    exact ⟨⟨F, Δ, hs⟩, r, c₁, he⟩
  | cons x before ih =>
    obtain ⟨r, c₁, hx, h⟩ := quiet_bind.1 h
    obtain ⟨rs', h, -⟩ := quiet_map.1 h
    obtain ⟨t, -, ht⟩ := hasType_of_quiet Γ x hs hx
    obtain ⟨F', hs'⟩ := HasType.outer (hs ▸ ht)
    have hafter : after (exprs Γ (x :: before)) c = after (exprs Γ before) c₁ := by
      rw [← hx.after_eq]
      rfl
    rw [hafter]
    exact ih hs' h

/-- The statements of a block are checked quietly if the block is. -/
theorem fine_of_quiet_block {Γ : Context} {before rest : List Expr} {e : Expr} {c c' : Checking}
    {rs : List (Option Ty)} (h : Quiet (inBlock (exprs Γ (before ++ e :: rest))) c rs c') :
    Fine Γ (after (exprs Γ before) (opened c)) e := by
  obtain ⟨c₁, hes, -⟩ := quiet_inBlock.1 h
  exact fine_of_quiet_exprs rfl hes

/-- Checking that is quiet at an expression is quiet at each part that it goes on to. -/
theorem fine_of_enters {Γ : Context} {c c' : Checking} {e e' : Expr} (hfine : Fine Γ c e)
    (henters : Enters Γ c e c' e') : Fine Γ c' e' := by
  obtain ⟨⟨F, Δ, hs⟩, r, c₀, h⟩ := hfine
  cases henters with
  | neg | not | left | declared | assigned | tested | held | returned =>
    obtain ⟨q, c₁, hpart, -⟩ := quiet_bind.1 h
    exact ⟨⟨F, Δ, hs⟩, q, c₁, hpart⟩
  | parens => exact ⟨⟨F, Δ, hs⟩, r, c₀, h⟩
  | right =>
    obtain ⟨q, c₁, hl, h⟩ := quiet_bind.1 h
    obtain ⟨q', c₂, hr, -⟩ := quiet_bind.1 h
    obtain ⟨t, -, ht⟩ := hasType_of_quiet Γ _ hs hl
    obtain ⟨F', hs'⟩ := HasType.outer (hs ▸ ht)
    rw [hl.after_eq]
    exact ⟨⟨F', Δ, hs'⟩, q', c₂, hr⟩
  | argument =>
    obtain ⟨qs, c₁, hargs, -⟩ := quiet_bind.1 h
    exact fine_of_quiet_exprs hs hargs
  | index | position =>
    obtain ⟨b, c₁, hb, h⟩ := quiet_bind.1 h
    obtain ⟨q, c₂, hp, -⟩ := quiet_bind.1 h
    obtain ⟨t, -, -, rfl⟩ := quiet_variableType.1 hb
    rw [hb.after_eq]
    exact ⟨⟨F, Δ, hs⟩, q, c₂, hp⟩
  | @stored s target base position value =>
    obtain ⟨b, c₁, hb, h⟩ := quiet_bind.1 h
    obtain ⟨p, c₂, hp, h⟩ := quiet_bind.1 h
    obtain ⟨q, c₃, hq, h⟩ := quiet_bind.1 h
    obtain ⟨v, c₄, hv, -⟩ := quiet_bind.1 h
    -- the value comes behind the element, whose check is one quiet run
    have hstate : Quiet (do
        let b ← variableType base.span base.text
        let p ← expr Γ position
        elementType target b p) c q c₃ := hb.bind (hp.bind hq)
    obtain ⟨t, hget, rfl, rfl⟩ := quiet_variableType.1 hb
    obtain ⟨tp, rfl, htp⟩ := hasType_of_quiet Γ _ hs hp
    obtain ⟨-, u, -, -, rfl⟩ := quiet_elementType.1 hq
    obtain ⟨F', hs'⟩ := HasType.outer (hs ▸ htp)
    rw [hstate.after_eq]
    exact ⟨⟨F', Δ, hs'⟩, v, c₄, hv⟩
  | @taken s cond =>
    obtain ⟨q, c₁, hc, h⟩ := quiet_bind.1 h
    obtain ⟨ok, c₂, hok, h⟩ := quiet_bind.1 h
    obtain ⟨bs, c₃, hb, -⟩ := quiet_bind.1 h
    have hstate : Quiet (do condition s (← expr Γ cond)) c ok c₂ := hc.bind hok
    rw [hstate.after_eq]
    exact fine_of_quiet_block hb
  | @otherwise s cond body =>
    obtain ⟨q, c₁, hc, h⟩ := quiet_bind.1 h
    obtain ⟨ok, c₂, hok, h⟩ := quiet_bind.1 h
    obtain ⟨bs, c₃, hb, h⟩ := quiet_bind.1 h
    obtain ⟨os, ho, -⟩ := quiet_map.1 h
    have hstate : Quiet (do
        let _ ← condition s (← expr Γ cond)
        inBlock (exprs Γ body)) c bs c₃ := hc.bind (hok.bind hb)
    rw [hstate.after_eq]
    exact fine_of_quiet_block ho
  | iterable =>
    rw [expr_forIn] at h
    obtain ⟨q, c₁, hi, -⟩ := quiet_bind.1 h
    exact ⟨⟨F, Δ, hs⟩, q, c₁, hi⟩
  | @round s name iterable before rest _ t u ht hu =>
    rw [expr_forIn] at h
    obtain ⟨q, c₁, hi, h⟩ := quiet_bind.1 h
    -- the body is entered with the types that the check of the iterable gave
    obtain rfl : q = some t := by
      rw [hi.1] at ht
      exact ht
    obtain ⟨u', hu', rs, ⟨c₂, hb, -⟩, -⟩ := quiet_visit.1 h
    obtain rfl : u = u' := Option.some.inj (hu.symm.trans (visited_iff.1 hu'))
    rw [hi.after_eq]
    exact fine_of_quiet_exprs rfl hb
  | @repeated s cond =>
    obtain ⟨q, c₁, hc, h⟩ := quiet_bind.1 h
    obtain ⟨ok, c₂, hok, h⟩ := quiet_bind.1 h
    obtain ⟨bs, hb, -⟩ := quiet_map.1 h
    have hstate : Quiet (do condition s (← expr Γ cond)) c ok c₂ := hc.bind hok
    rw [hstate.after_eq]
    exact fine_of_quiet_block hb

/-- Quiet checking goes on to every part of an expression. -/
theorem exists_enters_of_mem_parts {Γ : Context} {c : Checking} {e e' : Expr} (hfine : Fine Γ c e)
    (hpart : e' ∈ e.parts) : ∃ c', Enters Γ c e c' e' := by
  cases e with
  | int | bool | char | str | var | returnUnit => cases hpart
  | index | neg | not | parens | declare | assign | returnValue =>
    cases List.mem_singleton.1 hpart
    exact ⟨_, by constructor⟩
  | binary s op l r =>
    rcases List.mem_cons.1 hpart with rfl | hpart
    · exact ⟨_, .left⟩
    · cases List.mem_singleton.1 hpart
      exact ⟨_, .right⟩
  | call s name args =>
    obtain ⟨before, rest, rfl⟩ := List.append_of_mem hpart
    exact ⟨_, .argument⟩
  | store s target base position value =>
    rcases List.mem_cons.1 hpart with rfl | hpart
    · exact ⟨_, .position⟩
    · cases List.mem_singleton.1 hpart
      exact ⟨_, .stored⟩
  | branch s cond body otherwise =>
    rcases List.mem_append.1 hpart with hpart | hpart
    · rcases List.mem_cons.1 hpart with rfl | hpart
      · exact ⟨_, .tested⟩
      · obtain ⟨before, rest, rfl⟩ := List.append_of_mem hpart
        exact ⟨_, .taken⟩
    · obtain ⟨before, rest, rfl⟩ := List.append_of_mem hpart
      exact ⟨_, .otherwise⟩
  | forIn s name iterable body =>
    rcases List.mem_cons.1 hpart with rfl | hpart
    · exact ⟨_, .iterable⟩
    · obtain ⟨before, rest, rfl⟩ := List.append_of_mem hpart
      -- The body is looked at because the iterable has elements.
      obtain ⟨⟨F, Δ, hs⟩, r, c', h⟩ := hfine
      rw [expr_forIn] at h
      obtain ⟨q, c₁, hi, h⟩ := quiet_bind.1 h
      obtain ⟨t, rfl, -⟩ := hasType_of_quiet Γ iterable hs hi
      obtain ⟨u, hu, -⟩ := quiet_visit.1 h
      exact ⟨_, .round (congrArg Prod.fst hi.1) (visited_iff.1 hu)⟩
  | loop s cond body =>
    rcases List.mem_cons.1 hpart with rfl | hpart
    · exact ⟨_, .held⟩
    · obtain ⟨before, rest, rfl⟩ := List.append_of_mem hpart
      exact ⟨_, .repeated⟩

/-- What checking comes across is inside of what is checked. -/
theorem Visits.within {Γ : Context} {c c' : Checking} {e e' : Expr} (h : Visits Γ c e c' e') :
    Expr.Within e' e := by
  induction h with
  | here => exact .self
  | step henters _ ih =>
    refine .part ?_ ih
    cases henters <;> simp [Expr.parts]

/-- Quiet checking comes across everything that occurs in an expression. -/
theorem exists_visits_of_within {Γ : Context} {c : Checking} {e e' : Expr} (hfine : Fine Γ c e)
    (hwithin : e'.Within e) : ∃ c', Visits Γ c e c' e' := by
  induction hwithin generalizing c with
  | self => exact ⟨c, .here⟩
  | part hpart _ ih =>
    obtain ⟨c₁, henters⟩ := exists_enters_of_mem_parts hfine hpart
    obtain ⟨c₂, hvisits⟩ := ih (fine_of_enters hfine henters)
    exact ⟨c₂, .step henters hvisits⟩

/-- Checking that is quiet at an expression is quiet at all it comes across. -/
theorem fine_of_visits {Γ : Context} {c c' : Checking} {e e' : Expr} (hfine : Fine Γ c e)
    (hvisits : Visits Γ c e c' e') : Fine Γ c' e' := by
  induction hvisits with
  | here => exact hfine
  | step henters _ ih => exact ih (fine_of_enters hfine henters)

/-- Where checking is quiet it gives a type that is derivable, and no other type is. -/
theorem unique_type_of_fine {Γ : Context} {c : Checking} {e : Expr} (h : Fine Γ c e) :
    ∃ t, ((expr Γ e).run c).1 = some t ∧ (∃ Δ', HasType Γ c.scope e t Δ') ∧
      ∀ u Δ', HasType Γ c.scope e u Δ' → u = t := by
  obtain ⟨⟨F, Δ, hs⟩, r, c', hq⟩ := h
  obtain ⟨t, rfl, ht⟩ := hasType_of_quiet Γ e hs hq
  refine ⟨t, congrArg Prod.fst hq.1, ⟨_, ht⟩, ?_⟩
  intro u Δ' hu
  obtain ⟨c'', hq', -⟩ := quiet_of_hasType Γ e hs hu
  exact Option.some.inj (hq'.unique hq).1

end Scriptlet.Check
