/-!
# Scopes

A scope is a chain of frames, the innermost first.  Names are looked up from the inside outwards;
a declaration goes into the innermost frame and hides what is further out.  The evaluator keeps
values in a scope and the checker keeps types in one.
-/

namespace Scriptlet

/-- The names declared in one block, each with what it stands for. -/
abbrev Frame (α : Type) := List (String × α)

namespace Frame

variable {α : Type}

/-- What `name` stands for. -/
def get? (name : String) : Frame α → Option α
  | [] => none
  | (n, v) :: f => if n = name then some v else get? name f

/-- Whether `name` is declared. -/
def has (f : Frame α) (name : String) : Bool := (f.get? name).isSome

/-- Lets `name` stand for `v` from now on. -/
def declare (name : String) (v : α) : Frame α → Frame α
  | [] => [(name, v)]
  | (n, w) :: f => if n = name then (n, v) :: f else (n, w) :: declare name v f

/-- A declaration changes what one name stands for, and nothing else. -/
theorem get?_declare (name : String) (v : α) (f : Frame α) (other : String) :
    (f.declare name v).get? other = if name = other then some v else f.get? other := by
  induction f with
  | nil => simp [declare, get?]
  | cons entry f ih =>
    obtain ⟨n, w⟩ := entry
    by_cases hn : n = name
    · subst hn
      simp only [declare, get?, if_true]
      split <;> simp_all
    · simp only [declare, get?, if_neg hn, ih]
      by_cases ho : n = other
      · have hne : name ≠ other := fun h => hn (ho.trans h.symm)
        simp [ho, hne]
      · simp [ho]

end Frame

/-- Frames, the innermost first. -/
abbrev Scope (α : Type) := List (Frame α)

namespace Scope

variable {α : Type}

/-- One frame with nothing in it. -/
def empty : Scope α := [[]]

/-- What `name` stands for in the innermost frame that declares it. -/
def get? (s : Scope α) (name : String) : Option α := s.findSome? (Frame.get? name)

/-- Number of frames around the innermost frame that declares `name`. -/
def depth? : Scope α → String → Option Nat
  | [], _ => none
  | f :: fs, name => if f.has name then some fs.length else depth? fs name

/-- Whether the innermost frame declares `name`. -/
def declaredHere (s : Scope α) (name : String) : Bool :=
  match s with
  | [] => false
  | f :: _ => f.has name

/-- Declares `name` in the innermost frame. -/
def declare (s : Scope α) (name : String) (v : α) : Scope α :=
  match s with
  | [] => [Frame.declare name v []]
  | f :: fs => Frame.declare name v f :: fs

/-- Changes what `name` stands for where it is declared; `none` where it is not. -/
def set? : Scope α → String → α → Option (Scope α)
  | [], _, _ => none
  | f :: fs, name, v =>
    if f.has name then some (Frame.declare name v f :: fs)
    else (set? fs name v).map (f :: ·)

/-- Enters a block. -/
def push (s : Scope α) : Scope α := [] :: s

/-- Leaves the innermost block; the outermost frame stays. -/
def pop : Scope α → Scope α
  | _ :: f :: fs => f :: fs
  | s => s

/-! ## Laws -/

/-- A declaration changes what one name stands for, and nothing else. -/
theorem get?_declare (s : Scope α) (name : String) (v : α) (other : String) :
    (s.declare name v).get? other = if name = other then some v else s.get? other := by
  cases s with
  | nil => simp [declare, get?, Frame.get?_declare, Frame.get?]
  | cons f fs =>
    simp only [declare, get?, List.findSome?_cons, Frame.get?_declare]
    split <;> rename_i h
    · split at h <;> simp_all
    · split at h <;> simp_all

/-- A name that some frame declares can be set. -/
theorem isSome_set? (s : Scope α) (name : String) (v : α) :
    (s.set? name v).isSome = (s.get? name).isSome := by
  induction s with
  | nil => rfl
  | cons f fs ih =>
    rcases h : f.get? name with _ | w
    · simpa [set?, get?, Frame.has, h] using ih
    · simp [set?, get?, Frame.has, h]

/-- Setting a name keeps the number of frames. -/
theorem length_of_set? {s t : Scope α} {name : String} {v : α} (h : s.set? name v = some t) :
    t.length = s.length := by
  induction s generalizing t with
  | nil => cases h
  | cons f fs ih =>
    simp only [set?] at h
    split at h
    · cases h
      rfl
    · obtain ⟨u, hu, rfl⟩ := Option.map_eq_some_iff.1 h
      simp [ih hu]

/-- Leaving a block that was just entered gives the scope back. -/
theorem pop_push (f : Frame α) (fs : Scope α) : pop (push (f :: fs)) = f :: fs := rfl

end Scope

end Scriptlet
