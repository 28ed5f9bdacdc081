import Mathlib.Logic.Function.Iterate
import Scriptlet.Proofs.Grammar.Following
import Scriptlet.Proofs.Grammar.RoundTrip
import Scriptlet.Proofs.Token.Spacing
import Scriptlet.Typing.Ty

/-!
# Declared types

A written type denotes `Unit`, a primitive type, or arrays of arrays, so many deep, of a primitive
type.  Such a type is written without spaces, and brackets that close pile up at its end; still it is
read back from that: `Ty.ofRef_read_back`.
-/

namespace Scriptlet

namespace Ty

/-! ## What can be declared -/

/-- The types that written types denote. -/
inductive Declarable : Ty → Prop
  | unit : Declarable .unit
  | arrays {base : Ty} (n : Nat) : base.isPrimitive = true → Declarable (array^[n] base)

theorem ofName_declarable (name : String) : (ofName name).Declarable := by
  unfold ofName
  split
  · exact @Declarable.arrays .int 0 rfl
  · exact @Declarable.arrays .string 0 rfl
  · exact @Declarable.arrays .boolean 0 rfl
  · exact @Declarable.arrays .char 0 rfl
  · exact .unit

theorem arrayOf_iterate {base : Ty} (hbase : base.isPrimitive = true) (n : Nat) :
    arrayOf (array^[n] base) = array^[n + 1] base := by
  have hne : array^[n] base ≠ .unit := by
    cases n with
    | zero =>
      rintro rfl
      cases hbase
    | succ n =>
      rw [Function.iterate_succ_apply']
      exact Ty.noConfusion
  rw [Function.iterate_succ_apply', arrayOf]
  exact hne

/-- Arrays of what can be declared can be declared, where those of `Unit` are `Unit` themselves. -/
theorem Declarable.arrayOf {t : Ty} (h : t.Declarable) : (Ty.arrayOf t).Declarable := by
  cases h with
  | unit => exact .unit
  | arrays n hbase =>
    rw [arrayOf_iterate hbase]
    exact .arrays (n + 1) hbase

theorem ofRef_declarable (r : TypeRef) : (ofRef r).Declarable := by
  -- The one argument of an array is the first of the types that its arguments denote.
  induction r using TypeRef.rec (motive_2 := fun rs => ∀ t ∈ ofRefs rs, t.Declarable) with
  | simple span name =>
    rw [ofRef]
    exact ofName_declarable name
  | generic span name args ih =>
    unfold ofRef
    split
    · next t hargs =>
      apply Declarable.arrayOf
      apply ih t
      rw [hargs]
      exact List.mem_singleton_self t
    · exact .unit
  | nil t ht => cases ht
  | cons r rs ihr ihrs t ht =>
    rcases List.mem_cons.1 ht with rfl | ht
    · exact ihr
    · exact ihrs t ht

/-- Places play no part in what a written type denotes. -/
theorem ofRef_spanless (r : TypeRef) : ofRef r.spanless = ofRef r := by
  induction r using TypeRef.rec
    (motive_2 := fun rs => ofRefs (TypeRef.spanlessAll rs) = ofRefs rs) with
  | simple span name => rw [TypeRef.spanless, ofRef, ofRef]
  | generic span name args ih =>
    rw [TypeRef.spanless]
    unfold ofRef
    rw [ih]
  | nil => rfl
  | cons r rs ihr ihrs => rw [TypeRef.spanlessAll, ofRefs, ofRefs, ihr, ihrs]

/-! ## How a type is written -/

/-- A type in the form of a written one. -/
def toRef : Ty → TypeRef
  | array t => .generic .zero "Array" [t.toRef]
  | range t => .generic .zero "Range" [t.toRef]
  | t => .simple .zero t.kind

theorem ofRef_toRef {t : Ty} (h : t.Declarable) : ofRef t.toRef = t := by
  cases h with
  | unit => rfl
  | @arrays base n hbase =>
    induction n with
    | zero =>
      cases base with
      | int | string | boolean | char => rfl
      | unit | array | range => cases hbase
    | succ n ih =>
      have hstep : ofRef (array^[n + 1] base).toRef = arrayOf (ofRef (array^[n] base).toRef) := by
        rw [Function.iterate_succ_apply', toRef, ofRef]
        rfl
      rw [hstep, ih, arrayOf_iterate hbase]

end Ty

/-! ## Reading a written type -/

namespace Scan

/-- The tokens of the stretch `text` are `ts`, and reading goes on behind it, if what follows does not
go on with a word. -/
def Lexes (text : List Char) (ts : List Token) : Prop :=
  ∀ rest pos, (∀ c ∈ rest.head?, c.isAlphanum = false) →
    (lexemesFrom (text ++ rest) pos 0).map Lexeme.token =
      ts ++ (lexemesFrom rest (pos + text.length) 0).map Lexeme.token

theorem lexes_name {name : String} (hname : Token.IsName name) :
    Lexes name.toList [.ident name] := by
  intro rest pos hrest
  rw [lexemesFrom_stands (.ident hname hrest)]
  rfl

theorem lexes_generic {name : String} (hname : Token.IsName name) {text : List Char}
    {ts : List Token} (htext : Lexes text ts) :
    Lexes (name.toList ++ '<' :: (text ++ ['>']))
      (.ident name :: .symbol .less :: (ts ++ [.symbol .greater])) := by
  intro rest pos hrest
  -- Neither bracket goes on a word, and neither is part of a longer token.
  have hname' : Stands name.toList (.ident name) ('<' :: (text ++ '>' :: rest)) :=
    .ident hname (by simp)
  have hless : Stands ['<'] (.symbol .less) (text ++ '>' :: rest) :=
    .symbol (p := .less) fun h => nomatch h
  have hgreater : Stands ['>'] (.symbol .greater) rest :=
    .symbol (p := .greater) fun h => nomatch h
  have hsplit : name.toList ++ '<' :: (text ++ ['>']) ++ rest =
      name.toList ++ '<' :: (text ++ '>' :: rest) := by
    simp
  have hfirst := lexemesFrom_stands hname' pos
  have hsecond := lexemesFrom_stands hless (pos + name.toList.length)
  have hinner := htext ('>' :: rest) (pos + name.toList.length + 1) (by simp)
  have hlast := lexemesFrom_stands hgreater (pos + name.toList.length + 1 + text.length)
  rw [List.singleton_append, List.length_singleton] at hsecond hlast
  have hlength : pos + (name.toList ++ '<' :: (text ++ ['>'])).length =
      pos + name.toList.length + 1 + text.length + 1 := by
    simp only [List.length_append, List.length_cons, List.length_nil]
    omega
  rw [hsplit, hfirst, List.map_cons, hsecond, List.map_cons, hinner, hlast, List.map_cons, hlength]
  simp

end Scan

namespace Ty

/-- The token of each name of a type can be written. -/
theorem isName_kind (t : Ty) : Token.IsName t.kind := by
  cases t <;> rw [kind] <;> decide +kernel

theorem lexes_render (t : Ty) : Scan.Lexes t.render.toList t.toRef.tokens := by
  induction t with
  | int | string | boolean | char | unit => exact Scan.lexes_name (isName_kind _)
  | array t ih =>
    have htext : (array t).render.toList = "Array".toList ++ '<' :: (t.render.toList ++ ['>']) := by
      simp [render]
    rw [htext]
    exact Scan.lexes_generic (isName_kind (.array t)) ih
  | range t ih =>
    have htext : (range t).render.toList = "Range".toList ++ '<' :: (t.render.toList ++ ['>']) := by
      simp [render]
    rw [htext]
    exact Scan.lexes_generic (isName_kind (.range t)) ih

theorem tokens_render (t : Ty) :
    (Scan.lexemes t.render).map Lexeme.token = t.toRef.tokens := by
  have hlexes := t.lexes_render [] 0 (by simp)
  rw [List.append_nil] at hlexes
  rw [Scan.lexemes, hlexes]
  simp [Scan.lexemesFrom]

/-- A written type is read from its tokens, and nothing is left over. -/
theorem read_type (r : TypeRef) {lexemes : List Lexeme}
    (htokens : lexemes.map Lexeme.token = r.tokens) :
    ∃ r', Production.type.read lexemes ⟨0, lexemes.length⟩ =
        .ok (.type r', ⟨lexemes.length, lexemes.length⟩) ∧ r'.spanless = r.spanless := by
  have hspells : (Layout.indexed lexemes).Spells 0 lexemes.length (r.tokens ++ []) := by
    refine ⟨Nat.zero_le _, by simp [Layout.indexed], ?_⟩
    simp [Layout.indexed, htokens]
  have hlength : lexemes.length = 0 + r.tokens.length := by
    rw [← htokens, List.length_map, Nat.zero_add]
  obtain ⟨r', k, heval, hr', hk⟩ := Grammar.gets_type r (by simp) hspells
  refine ⟨r', ?_, hr'⟩
  rw [← hlength] at hk
  subst hk
  rw [Production.read_eq_ok_iff _ (Nat.zero_le _) (Nat.le_refl _), Production.rule,
    Rule.parses_bind]
  exact ⟨r', _, heval, Rule.parses_pure.2 ⟨rfl, rfl⟩⟩

/-- Whatever is written as a type denotes `Unit`, a primitive type, or an array of such types, arrays
of `Unit` left out; and this type is read back from how it is written, with nothing left over. -/
theorem ofRef_read_back (r : TypeRef) :
    (ofRef r).Declarable ∧
    let lexemes := Scan.lexemes (ofRef r).render
    ∃ r', Production.type.read lexemes ⟨0, lexemes.length⟩ =
        .ok (.type r', ⟨lexemes.length, lexemes.length⟩) ∧
      ofRef r' = ofRef r := by
  have hdeclarable := ofRef_declarable r
  obtain ⟨r', hread, hr'⟩ := read_type (ofRef r).toRef (tokens_render (ofRef r))
  refine ⟨hdeclarable, r', hread, ?_⟩
  rw [← ofRef_spanless r', hr', ofRef_spanless, ofRef_toRef hdeclarable]

end Ty

end Scriptlet
