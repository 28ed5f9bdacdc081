import Mathlib.Algebra.Ring.Nat
import Mathlib.Data.List.TakeWhile
import Scriptlet.Report

/-!
# Errors point at their places

An error with a place is shown in four lines: the message, the line and column of the place, the line
of the source, and marks under what the place covers of it.  `Report.render_points` says that line
and column give back where the place starts, and that the marks stand under exactly the characters
they are for.

Line, column and the text of the line are found by three searches from the place.  All of them are
related to the same splitting of the source at its line feeds: `Text.splitOn_feed_append`.
-/

namespace Scriptlet.Text

/-! ## The line around a position -/

/-- Where line `k` starts if lines are counted from zero and each takes a line feed more than its
characters. -/
def lineStart (lines : List (List Char)) (k : Nat) : Nat :=
  ((lines.take k).map fun line => line.length + 1).sum

/-- What stands before the first line feed. -/
def upToFeed (cs : List Char) : List Char := cs.takeWhile (· ≠ '\n')

theorem feed_notMem_upToFeed (cs : List Char) : '\n' ∉ upToFeed cs := by
  intro h
  exact absurd (List.mem_takeWhile_imp h) (by simp)

theorem upToFeed_cases (cs : List Char) :
    cs = upToFeed cs ∨ ∃ rest, cs = upToFeed cs ++ '\n' :: rest := by
  induction cs with
  | nil => exact .inl rfl
  | cons c cs ih =>
    by_cases hc : c = '\n'
    · subst hc
      exact .inr ⟨cs, by simp [upToFeed]⟩
    · have hcons : upToFeed (c :: cs) = c :: upToFeed cs := by simp [upToFeed, hc]
      rw [hcons]
      rcases ih with ih | ⟨rest, ih⟩
      · exact .inl (congrArg (c :: ·) ih)
      · exact .inr ⟨rest, congrArg (c :: ·) ih⟩

theorem length_splitOn_feed (cs : List Char) :
    (cs.splitOn '\n').length = cs.count '\n' + 1 := by
  induction cs with
  | nil => rfl
  | cons c cs ih =>
    rw [List.splitOn_cons_eq_if_modifyHead, List.count_cons]
    by_cases hc : (c == '\n') = true
    · rw [if_pos hc, if_pos hc, List.length_cons, ih]
    · rw [if_neg hc, if_neg hc, List.length_modifyHead, ih]

/-- The lines with their line feeds take up the text and one line feed more. -/
theorem sum_splitOn_feed (cs : List Char) :
    ((cs.splitOn '\n').map fun line => line.length + 1).sum = cs.length + 1 := by
  induction cs with
  | nil => rfl
  | cons c cs ih =>
    obtain ⟨line, lines, hlines⟩ := List.exists_cons_of_ne_nil (List.splitOn_ne_nil '\n' cs)
    rw [List.splitOn_cons_eq_if_modifyHead]
    rw [hlines] at ih ⊢
    split <;> simp at ih ⊢ <;> omega

/-- Splitting a text of two parts at its line feeds: the line where the parts meet is what stands
behind the last line feed of the first and before the first line feed of the second part. -/
theorem splitOn_feed_append (u v : List Char) : ∃ earlier later,
    (u ++ v).splitOn '\n' = earlier ++ ((upToFeed u.reverse).reverse ++ upToFeed v) :: later ∧
      earlier.length = u.count '\n' ∧
      (earlier.map fun line => line.length + 1).sum + (upToFeed u.reverse).length = u.length := by
  obtain ⟨before, hbefore⟩ : ∃ before, (upToFeed u.reverse).reverse = before := ⟨_, rfl⟩
  have hfeed : '\n' ∉ before := by
    rw [← hbefore, List.mem_reverse]
    exact feed_notMem_upToFeed _
  have hlength : (upToFeed u.reverse).length = before.length := by
    rw [← hbefore, List.length_reverse]
  -- What follows the first part adds lines behind the one where the parts meet.
  obtain ⟨later, hlater⟩ :
      ∃ later, (before ++ v).splitOn '\n' = (before ++ upToFeed v) :: later := by
    have hline : '\n' ∉ before ++ upToFeed v := by
      rw [List.mem_append, not_or]
      exact ⟨hfeed, feed_notMem_upToFeed v⟩
    rcases upToFeed_cases v with hv | ⟨rest, hv⟩
    · exact ⟨[], by rw [← hv] at hline ⊢; exact List.splitOn_eq_singleton hline⟩
    · refine ⟨rest.splitOn '\n', ?_⟩
      rw [← List.splitOn_append_cons_self_of_not_mem hline, List.append_assoc, ← hv]
  -- The first part is this line's start, or has earlier lines of its own.
  rw [hbefore, hlength]
  rcases upToFeed_cases u.reverse with hu | ⟨rest, hu⟩
  · have hu' : u = before := by rw [← hbefore, ← hu, List.reverse_reverse]
    subst hu'
    exact ⟨[], later, hlater, (List.count_eq_zero.2 hfeed).symm, Nat.zero_add _⟩
  · have hu' : u = rest.reverse ++ '\n' :: before := by
      rw [← List.reverse_reverse u, hu, List.reverse_append, hbefore]
      simp
    subst hu'
    refine ⟨rest.reverse.splitOn '\n', later, ?_, ?_, ?_⟩
    · rw [List.append_assoc, List.cons_append, List.splitOn_append_cons_self, hlater]
    · rw [length_splitOn_feed, List.count_append, List.count_cons_self,
        List.count_eq_zero.2 hfeed, Nat.zero_add]
    · rw [sum_splitOn_feed, List.length_append, List.length_cons]
      omega

end Scriptlet.Text

namespace Scriptlet

/-! ## The line of a span -/

namespace Excerpt

theorem dropReturns_eq_self {line : List Char} (h : '\r' ∉ line) : dropReturns line = line := by
  rw [dropReturns, List.dropWhile_eq_self_iff.2, List.reverse_reverse]
  intro hlength
  have hmem : line.reverse[0] ∈ line := List.mem_reverse.1 (List.getElem_mem hlength)
  simp only [decide_eq_true_eq]
  exact fun hreturn => h (hreturn ▸ hmem)

/-- The line that holds the start of a span is one of the lines of the source, with the number of
those before it; its parts before and behind the start tell the indentation and the marks. -/
theorem exists_ofSpan {source : List Char} {span : Span} (hsource : '\r' ∉ source)
    (hlo : span.lo ≤ source.length) : ∃ earlier before behind later,
      source.splitOn '\n' = earlier ++ (before ++ behind) :: later ∧
      (earlier.map fun line => line.length + 1).sum + before.length = span.lo ∧
      behind <+: source.drop span.lo ∧ '\n' ∉ before ++ behind ∧
      ofSpan source span =
        { line := earlier.length + 1
          indent := before.length
          text := before ++ behind
          width := max 1 (min span.hi (span.lo + behind.length) - span.lo) } := by
  obtain ⟨earlier, later, hsplit, hcount, hsum⟩ :=
    Text.splitOn_feed_append (source.take span.lo) (source.drop span.lo)
  rw [List.take_append_drop] at hsplit
  rw [List.length_take, Nat.min_eq_left hlo] at hsum
  refine ⟨earlier, _, _, later, hsplit, by rwa [List.length_reverse], List.takeWhile_prefix _,
    ?_, ?_⟩
  · rw [List.mem_append, List.mem_reverse, not_or]
    exact ⟨Text.feed_notMem_upToFeed _, Text.feed_notMem_upToFeed _⟩
  · have hreturn : '\r' ∉ (Text.upToFeed (source.take span.lo).reverse).reverse ++
        Text.upToFeed (source.drop span.lo) := by
      intro h
      rw [List.mem_append, List.mem_reverse] at h
      rcases h with h | h
      · have hmem := List.mem_reverse.1 ((List.takeWhile_prefix _).mem h)
        exact hsource (List.mem_of_mem_take hmem)
      · exact hsource (List.mem_of_mem_drop ((List.takeWhile_prefix _).mem h))
    rw [ofSpan, Nat.min_eq_left hlo, hcount, List.length_reverse, ← dropReturns_eq_self hreturn]
    rfl

theorem toList_gutter (x : Excerpt) :
    x.gutter.toList = List.replicate (Nat.toDigits 10 x.line).length ' ' := by
  have hpushn : ∀ n, ("".pushn ' ' n).toList = List.replicate n ' ' := by
    intro n
    rw [String.pushn_eq_repeat_push]
    induction n with
    | zero => rfl
    | succ n ih => rw [Nat.repeat, String.toList_push, ih, ← List.replicate_succ']
  rw [gutter, hpushn, ← String.length_toList, show (toString x.line).toList = _ from Nat.toList_repr]

end Excerpt

namespace Report

/-- The span lies in the source, and does not stand for the program as a whole. -/
structure Shows (source : String) (span : Span) : Prop where
  lo_le_hi : span.lo ≤ span.hi
  hi_le : span.hi ≤ source.length
  ne_zero : span ≠ .zero

/-- The lines of the text that shows an error. -/
def shown (source : String) (span : Span) (message : String) : List (List Char) :=
  (render source (some span) message).toList.splitOn '\n'

/-- The line with the line and the column of a place. -/
def positionLine (line column : Nat) : List Char :=
  List.replicate (Nat.toDigits 10 line).length ' ' ++ "--> ".toList ++ Nat.toDigits 10 line ++
    ':' :: Nat.toDigits 10 column

/-- The lines `shown` for a message point at a span of a source: they show the line
`before ++ marked ++ after` of it, in which the span covers `marked`. -/
structure PointsAt (source : List Char) (span : Span) (message : List Char)
    (shown : List (List Char)) (line column : Nat) (before marked after : List Char) : Prop where
  line_pos : 0 < line
  /-- This is the line with that number. -/
  text : (source.splitOn '\n')[line - 1]? = some (before ++ marked ++ after)
  /-- The column is that of the character behind `before`. -/
  column_eq : column = before.length + 1
  /-- Line and column give back where the span starts. -/
  position : Text.lineStart (source.splitOn '\n') (line - 1) + (column - 1) = span.lo
  /-- The span is marked up to its end or that of the line. -/
  marked_eq : marked = source.extract span.lo (min span.hi
    (Text.lineStart (source.splitOn '\n') (line - 1) + (before ++ marked ++ after).length))
  /-- The marks stand under what they mark; there is always one. -/
  lines : shown =
    ["error: ".toList ++ message,
     positionLine line column,
     Nat.toDigits 10 line ++ " | ".toList ++ (before ++ marked ++ after),
     List.replicate (Nat.toDigits 10 line).length ' ' ++ " | ".toList ++
       (List.replicate before.length ' ' ++ '^' :: List.replicate (marked.length - 1) '~') ++
       ' ' :: message]

variable {source message : String} {span : Span}

theorem notMem_toDigits {c : Char} (hc : c.isDigit = false) (n : Nat) : c ∉ Nat.toDigits 10 n := by
  intro h
  have hdigit := Nat.isDigit_of_mem_toDigits (by decide) (by decide) h
  rw [hc] at hdigit
  exact absurd hdigit (by decide)

/-- None of the lines holds a line feed, so they are found again in the text. -/
theorem shown_eq (hspan : span ≠ .zero) (hmessage : '\n' ∉ message.toList) {x : Excerpt}
    (hx : Excerpt.ofSpan source.toList span = x) (htext : '\n' ∉ x.text) :
    shown source span message =
      ["error: ".toList ++ message.toList,
       positionLine x.line (x.indent + 1),
       Nat.toDigits 10 x.line ++ " | ".toList ++ x.text,
       List.replicate (Nat.toDigits 10 x.line).length ' ' ++ " | ".toList ++ x.marks ++
         ' ' :: message.toList] := by
  have hlines : (lines source (some span) message).map String.toList =
      ["error: ".toList ++ message.toList,
       positionLine x.line (x.indent + 1),
       Nat.toDigits 10 x.line ++ " | ".toList ++ x.text,
       List.replicate (Nat.toDigits 10 x.line).length ' ' ++ " | ".toList ++ x.marks ++
         ' ' :: message.toList] := by
    simp [lines, hspan, hx, Excerpt.lines, x.toList_gutter, positionLine]
  rw [shown, render, String.toList_intercalate, hlines]
  have hdigits := notMem_toDigits (c := '\n') (by decide)
  apply List.splitOn_intercalate
  · simp [positionLine, Excerpt.marks, hdigits, hmessage, htext]
  · exact List.cons_ne_nil _ _

/-- What an error points at. -/
theorem exists_pointsAt (hsource : '\r' ∉ source.toList) (hspan : Shows source span)
    (hmessage : '\n' ∉ message.toList) : ∃ line column before marked after,
      PointsAt source.toList span message.toList (shown source span message) line column before
        marked after := by
  obtain ⟨hlohi, hhi, hne⟩ := hspan
  rw [← String.length_toList] at hhi
  obtain ⟨earlier, before, behind, later, hsplit, hstart, ⟨rest, hrest⟩, hfeed, hx⟩ :=
    Excerpt.exists_ofSpan hsource (Nat.le_trans hlohi hhi)
  have hline : Text.lineStart (source.toList.splitOn '\n') earlier.length + before.length =
      span.lo := by
    rw [Text.lineStart, hsplit, List.take_left, hstart]
  have htext : before ++ behind.take (span.hi - span.lo) ++ behind.drop (span.hi - span.lo) =
      before ++ behind := by
    rw [List.append_assoc, List.take_append_drop]
  refine ⟨earlier.length + 1, before.length + 1, before, behind.take (span.hi - span.lo),
    behind.drop (span.hi - span.lo), Nat.succ_pos _, ?_, rfl, hline, ?_, ?_⟩
  · rw [htext, hsplit, Nat.add_sub_cancel,
      List.getElem?_append_right (Nat.le_refl _), Nat.sub_self]
    rfl
  · rw [htext, List.length_append, Nat.add_sub_cancel, ← Nat.add_assoc, hline,
      List.extract_eq_take_drop, ← hrest, List.take_append_of_le_length (by omega),
      List.take_eq_take_iff]
    omega
  · rw [shown_eq hne hmessage hx hfeed, htext, Excerpt.marks]
    have hwidth : max 1 (min span.hi (span.lo + behind.length) - span.lo) - 1 =
        (behind.take (span.hi - span.lo)).length - 1 := by
      rw [List.length_take]
      omega
    simp only [hwidth]

theorem toDigits_inj {m n : Nat} (h : Nat.toDigits 10 m = Nat.toDigits 10 n) : m = n := by
  calc
    m = Nat.ofDigitChars 10 (Nat.toDigits 10 m) 0 := Nat.ofDigitChars_ten_toDigits.symm
    _ = Nat.ofDigitChars 10 (Nat.toDigits 10 n) 0 := by rw [h]
    _ = n := Nat.ofDigitChars_ten_toDigits

/-- Line and column can be told from how they are shown. -/
theorem positionLine_inj {line column line' column' : Nat}
    (h : positionLine line column = positionLine line' column') :
    line = line' ∧ column = column' := by
  have hcolon : ∀ n, ':' ∉ List.replicate (Nat.toDigits 10 n).length ' ' ++ "--> ".toList ++
      Nat.toDigits 10 n := by
    intro n
    simp [notMem_toDigits]
  -- The only colon separates the two numbers.
  have hsplit := congrArg (List.splitOn ':') h
  rw [positionLine, positionLine, List.splitOn_append_cons_self_of_not_mem (hcolon line),
    List.splitOn_append_cons_self_of_not_mem (hcolon line'),
    List.splitOn_eq_singleton (notMem_toDigits (by decide) column),
    List.splitOn_eq_singleton (notMem_toDigits (by decide) column')] at hsplit
  injection hsplit with hline hcolumn
  constructor
  · -- The margin is as long as the number, so equal lengths make equal margins.
    have hlength := congrArg List.length hline
    simp only [List.length_append, List.length_replicate] at hlength
    have hdigits : (Nat.toDigits 10 line).length = (Nat.toDigits 10 line').length := by omega
    rw [hdigits] at hline
    exact toDigits_inj (List.append_cancel_left hline)
  · exact toDigits_inj (List.singleton_inj.1 hcolumn)

/-- An error with a place is shown in four lines, which point at the place.  The line and column in
the second line tell where the place starts. -/
theorem render_points (hsource : '\r' ∉ source.toList) (hspan : Shows source span)
    (hmessage : '\n' ∉ message.toList) :
    (∃ line column before marked after, PointsAt source.toList span message.toList
      (shown source span message) line column before marked after) ∧
    ∀ (span' : Span) (message' : String), Shows source span' → '\n' ∉ message'.toList →
      span'.lo ≠ span.lo → (shown source span' message')[1]? ≠ (shown source span message)[1]? := by
  have hpoints := exists_pointsAt hsource hspan hmessage
  refine ⟨hpoints, ?_⟩
  intro span' message' hspan' hmessage' hne hsame
  obtain ⟨line, column, before, marked, after, hpoints⟩ := hpoints
  obtain ⟨line', column', before', marked', after', hpoints'⟩ :=
    exists_pointsAt hsource hspan' hmessage'
  rw [hpoints.lines, hpoints'.lines] at hsame
  obtain ⟨hline, hcolumn⟩ := positionLine_inj (Option.some.inj hsame)
  apply hne
  rw [← hpoints'.position, ← hpoints.position, hline, hcolumn]

/-- A place in the twelfth line, whose number has two digits. -/
theorem render_points_twelfth :
    let source := "\n\n\n\n\n\n\n\n\n\n\n x + y\n"
    Shows source ⟨12, 15⟩ ∧ ∃ line column before marked after,
      PointsAt source.toList ⟨12, 15⟩ "bad".toList (shown source ⟨12, 15⟩ "bad") line column before
        marked after := by
  intro source
  have hspan : Shows source ⟨12, 15⟩ := ⟨by decide, by decide, by decide⟩
  exact ⟨hspan, (render_points (by decide) hspan (by decide)).1⟩

example : render "\n\n\n\n\n\n\n\n\n\n\n x + y\n" (some ⟨12, 15⟩) "bad" =
    "error: bad\n  --> 12:2\n12 |  x + y\n   |  ^~~ bad" := by
  decide +kernel

end Report

end Scriptlet
