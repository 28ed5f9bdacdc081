import Scriptlet.Text.CodePoint

/-!
# Texts of code points

What programs compute with as texts.  Surrogates may stand in them, though no source and no line of
input holds one: a range of characters passes over them.  A text can be printed or traced only if it
consists of characters.
-/

namespace Scriptlet

/-- A text as programs have it. -/
structure CodeText where
  /-- Its code points, surrogates included. -/
  points : List CodePoint
deriving DecidableEq

namespace CodeText

/-- A text of characters. -/
def ofString (s : String) : CodeText := ⟨s.toList.map .ofChar⟩

instance : Coe String CodeText := ⟨ofString⟩

/-- A text of one code point. -/
def singleton (p : CodePoint) : CodeText := ⟨[p]⟩

/-- One text behind another. -/
def append (a b : CodeText) : CodeText := ⟨a.points ++ b.points⟩

instance : Append CodeText := ⟨append⟩

/-- How many code points there are. -/
def length (t : CodeText) : Nat := t.points.length

/-- Whether there are none. -/
def isEmpty (t : CodeText) : Bool := t.points.isEmpty

/-- Texts one behind the other. -/
def join (ts : List CodeText) : CodeText := ⟨ts.flatMap points⟩

/-- Texts one behind the other, with `sep` between them. -/
def joinWith (sep : CodeText) (ts : List CodeText) : CodeText := join (ts.intersperse sep)

/-- A text with another code point at a position. -/
def set (t : CodeText) (i : Nat) (p : CodePoint) : CodeText := ⟨t.points.set i p⟩

/-- Texts are ordered by the numbers of their code points. -/
instance : Ord CodeText := ⟨fun a b => compare (a.points.map (·.val)) (b.points.map (·.val))⟩

/-! ## Writing texts -/

/-- A surrogate stands in the text. -/
def HasSurrogate (t : CodeText) : Prop := ∃ p ∈ t.points, p.IsSurrogate

/-- The characters of a text.  A text in which a surrogate stands cannot be encoded. -/
def encode? (t : CodeText) : Option String := (t.points.mapM CodePoint.toChar?).map String.ofList

theorem points_append (a b : CodeText) : (a ++ b).points = a.points ++ b.points := rfl

theorem ofString_append (a b : String) : ofString (a ++ b) = ofString a ++ ofString b := by
  show (⟨_⟩ : CodeText) = ⟨_⟩
  rw [String.toList_append, List.map_append]
  rfl

/-- Characters are written as they are. -/
theorem mapM_toChar?_ofChar (cs : List Char) :
    (cs.map CodePoint.ofChar).mapM CodePoint.toChar? = some cs := by
  induction cs with
  | nil => rfl
  | cons c cs ih => simp [List.mapM_cons, CodePoint.toChar?_ofChar, ih]

/-- Whatever is written consists of its characters. -/
theorem eq_map_of_mapM_toChar? {ps : List CodePoint} {cs : List Char}
    (h : ps.mapM CodePoint.toChar? = some cs) : ps = cs.map CodePoint.ofChar := by
  induction ps generalizing cs with
  | nil =>
    obtain rfl := Option.some.inj h
    rfl
  | cons p ps ih =>
    rw [List.mapM_cons] at h
    obtain ⟨c, hc, h⟩ := Option.bind_eq_some_iff.1 h
    obtain ⟨rest, hrest, h⟩ := Option.bind_eq_some_iff.1 h
    obtain rfl := Option.some.inj h
    rw [List.map_cons, ← ih hrest, CodePoint.eq_ofChar_of_toChar? hc]

/-- The texts that can be encoded are those of characters. -/
theorem encode?_eq_some_iff {t : CodeText} {s : String} : t.encode? = some s ↔ t = ofString s := by
  constructor
  · intro h
    obtain ⟨cs, hcs, rfl⟩ := Option.map_eq_some_iff.1 h
    rw [ofString, String.toList_ofList, ← eq_map_of_mapM_toChar? hcs]
  · rintro rfl
    rw [encode?, ofString, mapM_toChar?_ofChar, Option.map_some, String.ofList_toList]

theorem encode?_ofString (s : String) : (ofString s).encode? = some s := encode?_eq_some_iff.2 rfl

theorem ofString_inj {a b : String} : ofString a = ofString b ↔ a = b := by
  rw [← encode?_eq_some_iff, encode?_ofString, Option.some_inj]

/-- A text cannot be encoded exactly if a surrogate stands in it. -/
theorem encode?_eq_none_iff {t : CodeText} : t.encode? = none ↔ t.HasSurrogate := by
  rw [encode?, HasSurrogate, Option.map_eq_none_iff]
  induction t.points with
  | nil => simp
  | cons p ps ih =>
    simp only [List.mapM_cons, List.mem_cons, exists_eq_or_imp]
    rw [← ih, ← CodePoint.toChar?_eq_none_iff]
    cases p.toChar? <;> cases ps.mapM CodePoint.toChar? <;> simp

theorem not_hasSurrogate_ofString (s : String) : ¬ (ofString s).HasSurrogate := by
  rw [← encode?_eq_none_iff, encode?_ofString]
  exact Option.some_ne_none s

theorem hasSurrogate_append {a b : CodeText} :
    (a ++ b).HasSurrogate ↔ a.HasSurrogate ∨ b.HasSurrogate := by
  simp only [HasSurrogate, points_append, List.mem_append, or_and_right, exists_or]

theorem hasSurrogate_join {ts : List CodeText} :
    (join ts).HasSurrogate ↔ ∃ t ∈ ts, t.HasSurrogate := by
  simp only [HasSurrogate, join, List.mem_flatMap]
  constructor
  · rintro ⟨p, ⟨t, ht, hp⟩, hsurrogate⟩
    exact ⟨t, ht, p, hp, hsurrogate⟩
  · rintro ⟨t, ht, p, hp, hsurrogate⟩
    exact ⟨p, ⟨t, ht, hp⟩, hsurrogate⟩

/-- What stands between texts is made of characters. -/
theorem hasSurrogate_joinWith {sep : String} {ts : List CodeText} :
    (joinWith sep ts).HasSurrogate ↔ ∃ t ∈ ts, t.HasSurrogate := by
  have hsep := not_hasSurrogate_ofString sep
  rw [joinWith, hasSurrogate_join]
  induction ts with
  | nil => rfl
  | cons t ts ih =>
    cases ts with
    | nil => rfl
    | cons u ts =>
      rw [List.intersperse_cons_cons]
      simp only [List.mem_cons, exists_eq_or_imp, hsep, false_or] at ih ⊢
      exact or_congr_right ih

end CodeText

end Scriptlet
