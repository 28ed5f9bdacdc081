import Scriptlet.Proofs.Store.Growth

/-!
# The values that a run holds

Whatever a program does, checked or not, its numbers stay in range and its handles name arrays that
are there.  `Value.Valid` says so of a value, `State.Valid` of all variables and elements, and
`Run.Upholds` of a run: it leaves a valid state behind, and what it gives or returns is valid.  There
is one rule for each primitive and each operation; the rule for forms follows the syntax.
-/

namespace Scriptlet

/-! ## Values and states -/

/-- A value that may be held while there are `n` arrays. -/
def Value.Valid (n : Nat) : Value → Prop
  | .int k => Word.InRange k
  | .char c => c.val < 0x110000
  | .array h => h.id < n
  | .range a b => a.Valid n ∧ b.Valid n
  | .bool _ | .str _ | .unit => True

/-- A value stays valid while arrays are added. -/
theorem Value.Valid.mono {n n' : Nat} (hn : n ≤ n') {v : Value} (h : v.Valid n) : v.Valid n' := by
  induction v with
  | int | char | bool | str | unit => exact h
  | array a => exact Nat.lt_of_lt_of_le h hn
  | range a b iha ihb => exact ⟨iha h.1, ihb h.2⟩

/-- Every variable holds a valid value. -/
def Scope.Valid (n : Nat) (sc : Scope Value) : Prop :=
  ∀ frame ∈ sc, ∀ entry ∈ frame, entry.2.Valid n

/-- Every element of an array is valid. -/
def Heap.Valid (m : Heap) : Prop := ∀ items ∈ m.arrays, ∀ v ∈ items, v.Valid m.size

/-- All variables and all elements of arrays are valid. -/
structure State.Valid (s : State) : Prop where
  scope : Scope.Valid s.heap.size s.scope
  heap : s.heap.Valid

namespace Frame

theorem mem_of_get? {α : Type} {f : Frame α} {name : String} {v : α} (h : f.get? name = some v) :
    (name, v) ∈ f := by
  induction f with
  | nil => cases h
  | cons entry f ih =>
    obtain ⟨n, w⟩ := entry
    simp only [get?] at h
    split at h
    · next hn =>
      obtain rfl := Option.some.inj h
      exact hn ▸ List.mem_cons_self
    · exact List.mem_cons_of_mem _ (ih h)

/-- After a declaration a frame holds what it held, and the value declared. -/
theorem mem_declare {α : Type} {f : Frame α} {name : String} {v : α} {entry : String × α}
    (h : entry ∈ f.declare name v) : entry.2 = v ∨ entry ∈ f := by
  induction f with
  | nil =>
    obtain rfl := List.mem_singleton.1 h
    exact .inl rfl
  | cons first f ih =>
    obtain ⟨n, w⟩ := first
    simp only [declare] at h
    split at h
    · rcases List.mem_cons.1 h with rfl | h
      · exact .inl rfl
      · exact .inr (List.mem_cons_of_mem _ h)
    · rcases List.mem_cons.1 h with rfl | h
      · exact .inr List.mem_cons_self
      · exact (ih h).imp_right (List.mem_cons_of_mem _)

theorem valid_declare {n : Nat} {f : Frame Value} {name : String} {v : Value}
    (hf : ∀ entry ∈ f, entry.2.Valid n) (hv : v.Valid n) :
    ∀ entry ∈ f.declare name v, entry.2.Valid n := by
  intro entry hentry
  rcases mem_declare hentry with heq | hmem
  · exact heq ▸ hv
  · exact hf entry hmem

end Frame

namespace Scope

variable {n n' : Nat} {sc sc' : Scope Value} {name : String} {v : Value}

theorem Valid.mono (hn : n ≤ n') (h : Valid n sc) : Valid n' sc :=
  fun frame hframe entry hentry => (h frame hframe entry hentry).mono hn

/-- What a variable holds is valid. -/
theorem Valid.get? (h : Valid n sc) (hv : sc.get? name = some v) : v.Valid n := by
  obtain ⟨frame, hframe, hget⟩ := List.exists_of_findSome?_eq_some hv
  exact h frame hframe (name, v) (Frame.mem_of_get? hget)

theorem Valid.declare (h : Valid n sc) (hv : v.Valid n) (name : String) :
    Valid n (sc.declare name v) := by
  cases sc with
  | nil => exact List.forall_mem_singleton.2 (Frame.valid_declare (by simp) hv)
  | cons f fs =>
    obtain ⟨hf, hfs⟩ := List.forall_mem_cons.1 h
    exact List.forall_mem_cons.2 ⟨Frame.valid_declare hf hv, hfs⟩

/-- A variable may be set to a valid value. -/
theorem Valid.set? (h : Valid n sc) (hv : v.Valid n) (hset : sc.set? name v = some sc') :
    Valid n sc' := by
  induction sc generalizing sc' with
  | nil => cases hset
  | cons f fs ih =>
    obtain ⟨hf, hfs⟩ := List.forall_mem_cons.1 h
    simp only [Scope.set?] at hset
    split at hset
    · obtain rfl := Option.some.inj hset
      exact List.forall_mem_cons.2 ⟨Frame.valid_declare hf hv, hfs⟩
    · obtain ⟨fs', hfs', rfl⟩ := Option.map_eq_some_iff.1 hset
      exact List.forall_mem_cons.2 ⟨hf, ih hfs hfs'⟩

theorem Valid.push (h : Valid n sc) : Valid n sc.push :=
  List.forall_mem_cons.2 ⟨by simp, h⟩

theorem Valid.pop (h : Valid n sc) : Valid n sc.pop := by
  unfold Scope.pop
  split
  · exact (List.forall_mem_cons.1 h).2
  · exact h

end Scope

namespace Heap

variable {m : Heap}

/-- The elements of an array are valid. -/
theorem Valid.items (h : m.Valid) (a : Handle) : ∀ v ∈ m.items a, v.Valid m.size := by
  intro v hv
  rw [Heap.items, Array.getD_eq_getD_getElem?] at hv
  cases hget : m.arrays[a.id]? with
  | none => simp [hget] at hv
  | some items =>
    rw [hget] at hv
    exact h items (Array.mem_of_getElem? hget) v hv

theorem size_alloc (m : Heap) (items : Array Value) : (m.alloc items).2.size = m.size + 1 := by
  simp [alloc, size]

theorem size_store (m : Heap) (a : Handle) (i : Nat) (v : Value) :
    (m.store a i v).size = m.size := by
  simp [store, size]

/-- A new array makes room for one more handle, and its elements are valid. -/
theorem Valid.alloc (h : m.Valid) {items : Array Value} (hitems : ∀ v ∈ items, v.Valid m.size) :
    (m.alloc items).2.Valid := by
  have hn : m.size ≤ (m.alloc items).2.size := by rw [size_alloc]; omega
  intro xs hxs v hv
  rcases Array.mem_push.1 hxs with hold | rfl
  · exact (h xs hold v hv).mono hn
  · exact (hitems v hv).mono hn

/-- An element may be replaced by a valid value. -/
theorem Valid.store (h : m.Valid) (a : Handle) (i : Nat) {v : Value} (hv : v.Valid m.size) :
    (m.store a i v).Valid := by
  intro xs hxs w hw
  rw [size_store]
  obtain ⟨k, hk⟩ := Array.mem_iff_getElem?.1 hxs
  simp only [Heap.store, Array.getElem?_modify] at hk
  split at hk
  · obtain ⟨ys, hys, rfl⟩ := Option.map_eq_some_iff.1 hk
    rcases Array.mem_or_eq_of_mem_setIfInBounds hw with hold | rfl
    · exact h ys (Array.mem_of_getElem? hys) w hold
    · exact hv
  · exact h xs (Array.mem_of_getElem? hk) w hw

end Heap

/-! ## How runs end -/

/-- A statement that returns gives a valid value. -/
def Completion.Valid (n : Nat) : Completion → Prop
  | .normal => True
  | .returned v => v.Valid n

/-- What a form gives is valid. -/
def Effect.Valid (n : Nat) : Effect → Prop
  | .value v => v.Valid n
  | .completed c => c.Valid n

/-- A value that is on its way to the call around is valid. -/
def Stop.Valid (n : Nat) : Stop → Prop
  | .returned v => v.Valid n
  | _ => True

/-- The second state is valid, and has all arrays of the first one. -/
structure State.Leads (s t : State) : Prop where
  valid : t.Valid
  size : s.heap.size ≤ t.heap.size

theorem State.Valid.leads {s : State} (h : s.Valid) : s.Leads s := ⟨h, Nat.le_refl _⟩

theorem State.Leads.trans {s t u : State} (h : s.Leads t) (h' : t.Leads u) : s.Leads u :=
  ⟨h'.valid, Nat.le_trans h.size h'.size⟩

/-- Another scope of valid variables. -/
theorem State.Leads.withScope {s t : State} (h : s.Leads t) {sc : Scope Value}
    (hsc : Scope.Valid t.heap.size sc) : s.Leads { t with scope := sc } :=
  ⟨⟨hsc, h.valid.heap⟩, h.size⟩

namespace Run

variable {α β : Type} {s t : State}

/-- From `s` the run ends in a valid state, with a result as `Q` says for the number of arrays then
there, or it stops with nothing invalid on its way out. -/
def Upholds (act : Run α) (s : State) (Q : Nat → α → Prop) : Prop :=
  match act.run s with
  | (.ok a, t) => s.Leads t ∧ Q t.heap.size a
  | (.error e, t) => s.Leads t ∧ e.Valid t.heap.size

theorem upholds_pure {a : α} {Q : Nat → α → Prop} (hs : s.Valid) (ha : Q s.heap.size a) :
    Upholds (pure a) s Q := ⟨hs.leads, ha⟩

theorem upholds_throw {e : Stop} {Q : Nat → α → Prop} (hs : s.Valid) (he : e.Valid s.heap.size) :
    Upholds (throw e) s Q := ⟨hs.leads, he⟩

/-- What is known of a run that was seen to end with a result. -/
theorem Upholds.of_run {act : Run α} {Q : Nat → α → Prop} {a : α} (h : Upholds act s Q)
    (hrun : act.run s = (.ok a, t)) : s.Leads t ∧ Q t.heap.size a := by
  rw [Upholds, hrun] at h
  exact h

/-- Runs one after the other. -/
theorem Upholds.bind {act : Run α} {f : α → Run β} {P : Nat → α → Prop} {Q : Nat → β → Prop}
    (h : Upholds act s P)
    (hf : ∀ a t, s.Leads t → P t.heap.size a → Upholds (f a) t Q) : Upholds (act >>= f) s Q := by
  unfold Upholds at h
  rcases hrun : act.run s with ⟨e | a, t⟩ <;> rw [hrun] at h
  · rw [Upholds, run_bind_error hrun]
    exact h
  · have hrest := hf a t h.1 h.2
    unfold Upholds at hrest
    rw [Upholds, run_bind_ok hrun]
    rcases hend : (f a).run t with ⟨e | b, u⟩ <;> rw [hend] at hrest
    · exact ⟨h.1.trans hrest.1, hrest.2⟩
    · exact ⟨h.1.trans hrest.1, hrest.2⟩

/-- A look at the state. -/
theorem upholds_get_bind {f : State → Run α} {Q : Nat → α → Prop} (h : Upholds (f s) s Q) :
    Upholds (get >>= f) s Q := by
  rw [Upholds, run_get_bind]
  exact h

/-- A change of the state. -/
theorem upholds_modify {f : State → State} {Q : Nat → Unit → Prop} (h : s.Leads (f s))
    (hQ : Q (f s).heap.size ()) : Upholds (modify f : Run Unit) s Q := ⟨h, hQ⟩

/-! ## Primitives -/

/-- Nothing is known of the result. -/
abbrev Anything : Nat → α → Prop := fun _ _ => True

/-- All of the values are valid. -/
def AllValid (n : Nat) (vs : List Value) : Prop := ∀ v ∈ vs, v.Valid n

theorem AllValid.mono {n n' : Nat} (hn : n ≤ n') {vs : List Value} (h : AllValid n vs) :
    AllValid n' vs := fun v hv => (h v hv).mono hn

theorem upholds_note (hs : s.Valid) (level : Nat) (text : String) :
    Upholds (note level text) s Anything :=
  upholds_modify ⟨⟨hs.scope, hs.heap⟩, Nat.le_refl _⟩ trivial

theorem upholds_keeps (hs : s.Valid) (level : Nat) : Upholds (keeps level) s Anything :=
  upholds_get_bind (upholds_pure hs trivial)

theorem upholds_textOf (hs : s.Valid) (v : Value) : Upholds (textOf v) s Anything := by
  refine upholds_get_bind ?_
  cases s.heap.text? v with
  | none => exact upholds_throw hs trivial
  | some text => exact upholds_pure hs trivial

theorem upholds_textsOf (hs : s.Valid) (vs : List Value) : Upholds (textsOf vs) s Anything := by
  refine upholds_get_bind ?_
  cases s.heap.texts? vs with
  | none => exact upholds_throw hs trivial
  | some texts => exact upholds_pure hs trivial

theorem upholds_noteText (hs : s.Valid) (level : Nat) (text : CodeText) :
    Upholds (noteText level text) s Anything := by
  refine (upholds_keeps hs level).bind fun keeps t ht _ => ?_
  cases keeps with
  | false => exact upholds_pure ht.valid trivial
  | true =>
    cases text.encode? with
    | none => exact upholds_throw ht.valid trivial
    | some line => exact upholds_note ht.valid level line

theorem upholds_noteValue (hs : s.Valid) (level : Nat) (label : String) (v : Value) :
    Upholds (noteValue level label v) s Anything :=
  (upholds_textOf hs v).bind fun _ _ ht _ => upholds_noteText ht.valid level _

theorem upholds_lookup (hs : s.Valid) (name : String) : Upholds (lookup name) s Value.Valid := by
  refine upholds_get_bind ?_
  cases hget : s.scope.get? name with
  | none => exact upholds_throw hs trivial
  | some v => exact upholds_pure hs (hs.scope.get? hget)

theorem upholds_declare (hs : s.Valid) (name : String) {v : Value} (hv : v.Valid s.heap.size) :
    Upholds (Run.declare name v) s Anything :=
  upholds_modify (hs.leads.withScope (hs.scope.declare hv name)) trivial

/-- A variable is set to a valid value, or it is missing and nothing changes. -/
theorem upholds_assign (hs : s.Valid) (name : String) {v : Value} (hv : v.Valid s.heap.size) :
    Upholds (assign name v) s Anything := by
  refine upholds_get_bind ?_
  cases hset : s.scope.set? name v with
  | none => exact upholds_throw hs trivial
  | some sc => exact upholds_modify (hs.leads.withScope (hs.scope.set? hv hset)) trivial

/-- A run from other variables, with other variables again in its place afterwards. -/
theorem upholds_rescoped {act act' : Run α} {Q : Nat → α → Prop} {sc : Scope Value}
    {C : State → Scope Value} (h : Upholds act { s with scope := sc } Q)
    (hrun : act'.run s = ((act.run { s with scope := sc }).1,
      { (act.run { s with scope := sc }).2 with
        scope := C (act.run { s with scope := sc }).2 }))
    (hafter : ∀ t, s.Leads t → Scope.Valid t.heap.size (C t)) : Upholds act' s Q := by
  unfold Upholds at h ⊢
  rw [hrun]
  rcases hact : act.run { s with scope := sc } with ⟨e | a, t⟩ <;> rw [hact] at h
  · have ht : s.Leads t := ⟨h.1.valid, h.1.size⟩
    exact ⟨ht.withScope (hafter t ht), h.2⟩
  · have ht : s.Leads t := ⟨h.1.valid, h.1.size⟩
    exact ⟨ht.withScope (hafter t ht), h.2⟩

theorem upholds_inBlock {act : Run α} {Q : Nat → α → Prop}
    (h : Upholds act { s with scope := s.scope.push } Q) : Upholds (inBlock act) s Q :=
  upholds_rescoped h rfl fun _ ht => ht.valid.scope.pop

/-- After a call the variables of the caller are back, among as many arrays or more. -/
theorem upholds_inCall (hs : s.Valid) {frame : Frame Value} {act : Run α} {Q : Nat → α → Prop}
    (h : Upholds act { s with scope := [frame] } Q) : Upholds (inCall frame act) s Q :=
  upholds_rescoped (C := fun _ => s.scope) h rfl fun _ ht => hs.scope.mono ht.size

theorem upholds_itemsOf (hs : s.Valid) (h : Handle) :
    Upholds (itemsOf h) s fun n items => AllValid n items.toList :=
  upholds_get_bind (upholds_pure hs fun v hv => hs.heap.items h v (Array.mem_def.2 hv))

/-- The handle of the new array is valid behind the run. -/
theorem upholds_alloc (hs : s.Valid) {vs : List Value} (hvs : AllValid s.heap.size vs) :
    Upholds (alloc vs) s Value.Valid := by
  have hsize : s.heap.size ≤ (s.heap.alloc vs.toArray).2.size := by
    rw [Heap.size_alloc]
    omega
  have hheap : (s.heap.alloc vs.toArray).2.Valid :=
    hs.heap.alloc fun v hv => hvs v (List.mem_toArray.1 hv)
  refine ⟨⟨⟨hs.scope.mono hsize, hheap⟩, hsize⟩, ?_⟩
  show s.heap.size < (s.heap.alloc vs.toArray).2.size
  rw [Heap.size_alloc]
  omega

theorem upholds_store (hs : s.Valid) (h : Handle) (i : Nat) {v : Value}
    (hv : v.Valid s.heap.size) : Upholds (store h i v) s Anything := by
  have hsize : s.heap.size ≤ (s.heap.store h i v).size := Nat.le_of_eq (s.heap.size_store h i v).symm
  exact upholds_modify ⟨⟨hs.scope.mono hsize, hs.heap.store h i hv⟩, hsize⟩ trivial

/-- A text is printed, or refused with nothing changed. -/
theorem upholds_print (hs : s.Valid) (text : CodeText) : Upholds (print text) s Anything := by
  unfold print
  cases text.encode? with
  | none => exact upholds_throw hs trivial
  | some shown => exact upholds_modify ⟨⟨hs.scope, hs.heap⟩, Nat.le_refl _⟩ trivial

/-- A line is taken off the input, or none is left. -/
theorem upholds_readLine (hs : s.Valid) : Upholds readLine s Anything := by
  refine upholds_get_bind ?_
  cases s.console.readLine? with
  | none => exact upholds_throw hs trivial
  | some read => exact ⟨⟨⟨hs.scope, hs.heap⟩, Nat.le_refl _⟩, trivial⟩

theorem upholds_expectInt (hs : s.Valid) {v : Value} (hv : v.Valid s.heap.size) :
    Upholds (expectInt v) s fun _ k => Word.InRange k := by
  cases v with
  | int k => exact upholds_pure hs hv
  | _ => exact upholds_throw hs trivial

theorem upholds_position (hs : s.Valid) {v : Value} (hv : v.Valid s.heap.size) (length : Nat) :
    Upholds (position v length) s Anything := by
  refine (upholds_expectInt hs hv).bind fun i t ht _ => ?_
  split
  · exact upholds_pure ht.valid trivial
  · exact upholds_throw ht.valid trivial

theorem upholds_noteCall (hs : s.Valid) (what : String) (args : List Value) :
    Upholds (noteCall what args) s Anything := by
  refine (upholds_keeps hs 2).bind fun keeps t ht _ => ?_
  cases keeps with
  | false => exact upholds_pure ht.valid trivial
  | true =>
    exact (upholds_textsOf ht.valid args).bind fun _ _ hu _ => upholds_noteText hu.valid 2 _

end Run

open Run

variable {s : State}

/-! ## Operations -/

/-- An element of an array is valid because the array is, one of a text is a character. -/
theorem Value.upholds_elementAt (hs : s.Valid) (container : Value) {i : Value}
    (hi : i.Valid s.heap.size) : Upholds (container.elementAt i) s Value.Valid := by
  cases container with
  | array h =>
    refine (upholds_itemsOf hs h).bind fun items t ht hitems => ?_
    refine (upholds_position ht.valid (hi.mono ht.size) _).bind fun k u hu _ => ?_
    refine upholds_pure hu.valid ?_
    rw [Array.getD_eq_getD_getElem?]
    cases hget : items[k]? with
    | none => exact trivial
    | some v => exact (hitems v (Array.mem_def.1 (Array.mem_of_getElem? hget))).mono hu.size
  | str text =>
    refine (upholds_position hs hi _).bind fun k t ht _ => ?_
    exact upholds_pure ht.valid (CodePoint.isLt _)
  | _ => exact upholds_throw hs trivial

/-- A store replaces an element of an array, or the text of a variable. -/
theorem Value.upholds_storeAt (hs : s.Valid) (name : String) (container : Value) {i v : Value}
    (hi : i.Valid s.heap.size) (hv : v.Valid s.heap.size) :
    Upholds (container.storeAt name i v) s Anything := by
  unfold Value.storeAt
  split
  · refine (upholds_itemsOf hs _).bind fun items t ht _ => ?_
    refine (upholds_position ht.valid (hi.mono ht.size) _).bind fun k u hu _ => ?_
    exact upholds_store hu.valid _ _ (hv.mono (ht.trans hu).size)
  · refine (upholds_position hs hi _).bind fun k t ht _ => ?_
    exact upholds_assign ht.valid name trivial
  · exact upholds_throw hs trivial

theorem Value.upholds_order (hs : s.Valid) (a b : Value) : Upholds (Value.order a b) s Anything := by
  unfold Value.order
  split <;> exact ⟨hs.leads, trivial⟩

/-- Arithmetic on two numbers. -/
theorem Value.upholds_arithmetic (hs : s.Valid) {a b : Value} (ha : a.Valid s.heap.size)
    (hb : b.Valid s.heap.size) {f : Int → Int → Int} (hf : ∀ m n, Word.InRange (f m n)) :
    Upholds (do return Value.int (f (← expectInt a) (← expectInt b))) s Value.Valid := by
  refine (upholds_expectInt hs ha).bind fun m t ht _ => ?_
  refine (upholds_expectInt ht.valid (hb.mono ht.size)).bind fun n u hu _ => ?_
  exact upholds_pure hu.valid (hf m n)

/-- Sums are wrapped, so they are in range. -/
theorem Value.upholds_plus (hs : s.Valid) {a b : Value} (ha : a.Valid s.heap.size)
    (hb : b.Valid s.heap.size) : Upholds (Value.plus a b) s Value.Valid := by
  have htexts : ∀ x y, Upholds (do return Value.str ((← textOf x) ++ (← textOf y))) s
      Value.Valid := by
    intro x y
    refine (upholds_textOf hs x).bind fun _ t ht _ => ?_
    exact (upholds_textOf ht.valid y).bind fun _ u hu _ => upholds_pure hu.valid trivial
  unfold Value.plus
  split
  · exact htexts _ _
  · exact htexts _ _
  · exact Value.upholds_arithmetic hs ha hb fun _ _ => Word.inRange_wrap _

theorem Word.inRange_of_div? {a b q : Int} (h : div? a b = some q) : InRange q := by
  simp only [div?] at h
  split at h
  · cases h
  · obtain rfl := Option.some.inj h
    exact inRange_wrap _

/-- Results of operators are in range, or are no numbers. -/
theorem BinOp.upholds_combine (hs : s.Valid) (op : BinOp) {a b : Value} (ha : a.Valid s.heap.size)
    (hb : b.Valid s.heap.size) : Upholds (op.combine a b) s Value.Valid := by
  cases op with
  | and | or => exact upholds_pure hs trivial
  | add => exact Value.upholds_plus hs ha hb
  | sub | mul => exact Value.upholds_arithmetic hs ha hb fun _ _ => Word.inRange_wrap _
  | div =>
    refine (upholds_expectInt hs ha).bind fun m t ht _ => ?_
    refine (upholds_expectInt ht.valid (hb.mono ht.size)).bind fun n u hu _ => ?_
    cases hq : Word.div? m n with
    | none => exact upholds_throw hu.valid trivial
    | some q => exact upholds_pure hu.valid (Word.inRange_of_div? hq)
  | range => exact upholds_pure hs ⟨ha, hb⟩
  | less | greater =>
    exact (Value.upholds_order hs a b).bind fun _ t ht _ => upholds_pure ht.valid trivial

theorem BinOp.valid_of_shortcut {op : BinOp} {a v : Value} {n : Nat}
    (h : op.shortcut? a = some v) : v.Valid n := by
  cases op with
  | and | or =>
    simp only [BinOp.shortcut?] at h
    split at h
    all_goals first | (cases h; exact trivial) | cases h
  | _ => cases h

/-- The numbers from one that is in range up to another one are in range. -/
theorem Items.valid_numbers {lo hi : Int} (hlo : Word.InRange lo) (hhi : Word.InRange hi) {n : Nat} :
    AllValid n (Items.numbers lo (hi + 1 - lo).toNat).toList := by
  intro v hv
  obtain ⟨k, hk, rfl⟩ := List.mem_map.1 hv
  have hlt := List.mem_range.1 hk
  simp only [Value.Valid, Word.InRange] at hlo hhi ⊢
  omega

/-- What a loop visits is valid: elements of an array, numbers between two in range, characters. -/
theorem Value.upholds_elements (hs : s.Valid) {v : Value} (hv : v.Valid s.heap.size) :
    Upholds v.elements s fun n items => AllValid n items.toList := by
  have hchars : ∀ (n : Nat) (cs : List CodePoint), AllValid n (cs.map Value.char) := by
    intro n cs v hv
    obtain ⟨c, -, rfl⟩ := List.mem_map.1 hv
    exact c.isLt
  unfold Value.elements
  split
  · exact (upholds_itemsOf hs _).bind fun items t ht hitems => upholds_pure ht.valid hitems
  · exact upholds_pure hs (hchars _ _)
  · exact upholds_throw hs trivial
  · -- both ends are numbers in range, and so are those between them
    obtain ⟨ha, hb⟩ := hv
    refine (upholds_expectInt hs ha).bind fun lo t ht hlo => ?_
    refine (upholds_expectInt ht.valid (hb.mono ht.size)).bind fun hi u hu hhi => ?_
    exact upholds_pure hu.valid (Items.valid_numbers hlo hhi)
  · exact upholds_pure hs (hchars _ _)
  · exact upholds_throw hs trivial

/-- Only numbers in range are read from a line. -/
theorem Text.inRange_of_readInt {line : String} {k : Int} (h : Text.readInt line = .ok k) :
    Word.InRange k := by
  simp only [Text.readInt] at h
  split at h
  · cases h
  · split at h
    · cases h
    · split at h
      · next hin =>
        cases h
        exact hin
      · cases h

/-- Built-in functions take valid values to valid ones. -/
theorem Builtin.upholds_apply (hs : s.Valid) (b : Builtin) {vs : List Value}
    (hvs : AllValid s.heap.size vs) : Upholds (b.apply vs) s Value.Valid := by
  cases b with
  | print | println =>
    refine (upholds_textsOf hs vs).bind fun _ t ht _ => ?_
    exact (upholds_print ht.valid _).bind fun _ u hu _ => upholds_pure hu.valid trivial
  | readln => exact (upholds_readLine hs).bind fun _ t ht _ => upholds_pure ht.valid trivial
  | readlnInt =>
    refine (upholds_readLine hs).bind fun line t ht _ => ?_
    cases hread : Text.readInt line with
    | error stop =>
      obtain rfl | rfl := Text.readInt_error hread <;> exact upholds_throw ht.valid trivial
    | ok k => exact upholds_pure ht.valid (Text.inRange_of_readInt hread)
  | readlnBoolean =>
    refine (upholds_readLine hs).bind fun line t ht _ => ?_
    cases Text.readBoolean? line with
    | none => exact upholds_throw ht.valid trivial
    | some b => exact upholds_pure ht.valid trivial
  | arrayOf => exact upholds_alloc hs hvs

/-! ## Statements and loops -/

namespace Run

theorem upholds_announce (hs : s.Valid) (e : Expr) : Upholds (announce e) s Anything :=
  upholds_note hs _ _

theorem upholds_announceStatement (hs : s.Valid) (e : Expr) :
    Upholds (announceStatement e) s Anything := by
  rw [announceStatement]
  split
  · exact upholds_announce hs e
  · exact upholds_pure hs trivial

/-- Whatever valid state it starts from, the run gives something valid. -/
def Keeps {α : Type} (Q : Nat → α → Prop) (act : Run α) : Prop := ∀ s, s.Valid → Upholds act s Q

theorem Keeps.asValue {act : Run Effect} (h : Keeps Effect.Valid act) (e : Expr) :
    Keeps Value.Valid (asValue e act) := by
  intro s hs
  refine (upholds_announceStatement hs e).bind fun _ t ht _ => ?_
  refine (h t ht.valid).bind fun effect u hu heffect => ?_
  rcases effect with v | (_ | v)
  · exact upholds_pure hu.valid heffect
  · exact upholds_pure hu.valid trivial
  · exact upholds_throw hu.valid heffect

theorem Keeps.asStatement {act : Run Effect} (h : Keeps Effect.Valid act) (e : Expr) :
    Keeps Completion.Valid (asStatement e act) := by
  intro s hs
  refine (upholds_announce hs e).bind fun _ t ht _ => ?_
  refine (h t ht.valid).bind fun effect u hu heffect => ?_
  rcases effect with v | c
  · exact upholds_pure hu.valid trivial
  · exact upholds_pure hu.valid heffect

theorem Upholds.andThen {first second : Run Completion}
    (hfirst : Upholds first s Completion.Valid)
    (hsecond : ∀ t, s.Leads t → Upholds second t Completion.Valid) :
    Upholds (andThen first second) s Completion.Valid := by
  refine hfirst.bind fun c t ht hc => ?_
  cases c with
  | normal => exact hsecond t ht
  | returned v => exact upholds_pure ht.valid hc

theorem Keeps.inBlock {α : Type} {Q : Nat → α → Prop} {act : Run α} (h : Keeps Q act) :
    Keeps Q (inBlock act) :=
  fun _ hs => upholds_inBlock (h _ ⟨hs.scope.push, hs.heap⟩)

/-- By induction on the values, which stay valid because arrays only get more. -/
theorem upholds_eachValue {body : Value → Run Completion}
    (hbody : ∀ v t, t.Valid → v.Valid t.heap.size → Upholds (body v) t Completion.Valid)
    {vs : List Value} (hs : s.Valid) (hvs : AllValid s.heap.size vs) :
    Upholds (eachValue body vs) s Completion.Valid := by
  induction vs generalizing s with
  | nil => exact upholds_pure hs trivial
  | cons v vs ih =>
    obtain ⟨hv, hvs⟩ := List.forall_mem_cons.1 hvs
    exact (hbody v s hs hv).andThen fun t ht => ih ht.valid (AllValid.mono ht.size hvs)

theorem upholds_roundFor {name : String} {body : Run Completion}
    (hbody : Keeps Completion.Valid body) (hs : s.Valid) {v : Value} (hv : v.Valid s.heap.size) :
    Upholds (roundFor name body v) s Completion.Valid := by
  refine (upholds_noteValue hs 3 _ v).bind fun _ t ht _ => ?_
  exact (upholds_declare ht.valid name (hv.mono ht.size)).bind fun _ u hu _ => hbody u hu.valid

/-- A loop over values keeps states valid, whether its rounds share a scope or not. -/
theorem upholds_forLoop (scope : ForScope) {name : String} {body : Run Completion}
    (hbody : Keeps Completion.Valid body) (hs : s.Valid) {items : Items}
    (hitems : AllValid s.heap.size items.toList) :
    Upholds (forLoop scope name body items) s Completion.Valid := by
  cases scope with
  | shared =>
    rw [forLoop, each_eq]
    exact upholds_inBlock (upholds_eachValue (fun _ _ ht hv => upholds_roundFor hbody ht hv)
      ⟨hs.scope.push, hs.heap⟩ hitems)
  | fresh =>
    rw [forLoop, each_eq]
    refine upholds_eachValue (fun v t ht hv => upholds_inBlock ?_) hs hitems
    exact upholds_roundFor (s := { t with scope := t.scope.push }) hbody
      ⟨ht.scope.push, ht.heap⟩ hv

/-- By induction on the rounds that are left. -/
theorem upholds_whileTrue {cond : Run Value} {body : Run Completion}
    (hcond : Keeps Value.Valid cond) (hbody : Keeps Completion.Valid body) (rounds : Nat)
    (hs : s.Valid) : Upholds (whileTrue cond body rounds) s Completion.Valid := by
  induction rounds generalizing s with
  | zero => exact upholds_throw hs trivial
  | succ rounds ih =>
    refine (hcond s hs).bind fun c t ht _ => ?_
    split
    · refine (upholds_note ht.valid _ _).bind fun _ u hu _ => ?_
      exact (hbody.inBlock u hu.valid).andThen fun w hw => ih hw.valid
    · exact upholds_pure ht.valid trivial

/-- The result of a call is what its body returns. -/
theorem upholds_resultOf {body : Run Completion} (h : Upholds body s Completion.Valid) :
    Upholds (resultOf body) s Value.Valid := by
  have hrun : (resultOf body).run s = resultOf body s := rfl
  unfold Upholds at h ⊢
  rw [hrun]
  unfold resultOf
  rcases hend : body.run s with ⟨stop | completion, t⟩ <;> rw [hend] at h
  · cases stop <;> exact h
  · cases completion <;> exact h

end Run

/-! ## Forms -/

/-- The numbers that are written in a form are in range. -/
def Expr.NumbersFit (e : Expr) : Prop :=
  ∀ span k, Expr.Within (.int span k) e → Word.InRange k

theorem Expr.NumbersFit.part {e e' : Expr} (h : e.NumbersFit) (hpart : e' ∈ e.parts) :
    e'.NumbersFit := fun span k hwithin => h span k (.part hpart hwithin)

namespace Machine

/-- Calls with valid arguments give valid values. -/
def ValidCalls (m : Machine) : Prop :=
  ∀ ⦃s name vs⦄, s.Valid → AllValid s.heap.size vs → Upholds (m.call name vs) s Value.Valid

variable {m : Machine}

theorem upholds_values_of {es : List Expr} (ih : ∀ e ∈ es, Keeps Effect.Valid (m.step e))
    (hs : s.Valid) : Upholds (m.values es) s AllValid := by
  induction es generalizing s with
  | nil => exact upholds_pure hs fun _ hv => by cases hv
  | cons e es ihes =>
    refine ((ih e List.mem_cons_self).asValue e s hs).bind fun v t ht hv => ?_
    refine (ihes (fun x hx => ih x (List.mem_cons_of_mem _ hx)) ht.valid).bind fun vs u hu hvs => ?_
    exact upholds_pure hu.valid (List.forall_mem_cons.2 ⟨hv.mono hu.size, hvs⟩)

/-- Statements keep states valid if each of them does. -/
theorem keeps_block_of {es : List Expr} (ih : ∀ e ∈ es, Keeps Effect.Valid (m.step e)) :
    Keeps Completion.Valid (m.block es) := by
  induction es with
  | nil => exact fun s hs => upholds_pure hs trivial
  | cons e es ihes =>
    intro s hs
    refine ((ih e List.mem_cons_self).asStatement e s hs).andThen fun t ht => ?_
    exact ihes (fun x hx => ih x (List.mem_cons_of_mem _ hx)) t ht.valid

/-- Running a form whose numbers are in range gives something valid. -/
theorem ValidCalls.step (hm : m.ValidCalls) (e : Expr) (he : e.NumbersFit) :
    Keeps Effect.Valid (m.step e) := by
  induction e using Expr.induction with
  | int span k => exact fun s hs => upholds_pure hs (he span k .self)
  | char span c => exact fun s hs => upholds_pure hs (CodePoint.isLt _)
  | bool | str | returnUnit => exact fun s hs => upholds_pure hs trivial
  | var span name =>
    exact fun s hs => (upholds_lookup hs name).bind fun v t ht hv => upholds_pure ht.valid hv
  | index span base position ih =>
    intro s hs
    refine (upholds_lookup hs _).bind fun container t ht _ => ?_
    refine ((ih (he.part (by simp [Expr.parts]))).asValue _ t ht.valid).bind fun i u hu hi => ?_
    refine (Value.upholds_elementAt hu.valid container hi).bind fun v w hw hv => ?_
    exact upholds_pure hw.valid hv
  | neg span e ih =>
    intro s hs
    refine ((ih (he.part (by simp [Expr.parts]))).asValue _ s hs).bind fun v t ht hv => ?_
    refine (upholds_expectInt ht.valid hv).bind fun k u hu _ => ?_
    exact upholds_pure hu.valid (Word.inRange_wrap _)
  | not span e ih =>
    intro s hs
    refine ((ih (he.part (by simp [Expr.parts]))).asValue _ s hs).bind fun v t ht _ => ?_
    exact upholds_pure ht.valid trivial
  | parens span e ih | returnValue span e ih =>
    intro s hs
    refine ((ih (he.part (by simp [Expr.parts]))).asValue _ s hs).bind fun v t ht hv => ?_
    exact upholds_pure ht.valid hv
  | binary span op l r ihl ihr =>
    intro s hs
    refine ((ihl (he.part (by simp [Expr.parts]))).asValue _ s hs).bind fun a t ht ha => ?_
    cases hshortcut : op.shortcut? a with
    | some v => exact upholds_pure ht.valid (BinOp.valid_of_shortcut hshortcut)
    | none =>
      refine ((ihr (he.part (by simp [Expr.parts]))).asValue _ t ht.valid).bind fun b u hu hb => ?_
      refine (op.upholds_combine hu.valid (ha.mono hu.size) hb).bind fun v w hw hv => ?_
      exact upholds_pure hw.valid hv
  | call span name args ih =>
    intro s hs
    refine (upholds_values_of (fun e hmem => ih e hmem (he.part hmem)) hs).bind
      fun vs t ht hvs => ?_
    exact (hm ht.valid hvs).bind fun v u hu hv => upholds_pure hu.valid hv
  | declare span mutable name value ih =>
    intro s hs
    refine ((ih (he.part (by simp [Expr.parts]))).asValue _ s hs).bind fun v t ht hv => ?_
    refine (upholds_declare ht.valid name hv).bind fun _ u hu _ => ?_
    exact (upholds_noteValue hu.valid 2 _ v).bind fun _ w hw _ => upholds_pure hw.valid trivial
  | assign span name value ih =>
    intro s hs
    refine ((ih (he.part (by simp [Expr.parts]))).asValue _ s hs).bind fun v t ht hv => ?_
    exact (upholds_assign ht.valid name hv).bind fun _ u hu _ => upholds_pure hu.valid trivial
  | store span target base position value ihp ihv =>
    intro s hs
    -- the position was valid when it was found; since then arrays may have been added
    refine (upholds_lookup hs _).bind fun container t ht _ => ?_
    refine ((ihp (he.part (by simp [Expr.parts]))).asValue _ t ht.valid).bind fun i u hu hi => ?_
    refine ((ihv (he.part (by simp [Expr.parts]))).asValue _ u hu.valid).bind fun v w hw hv => ?_
    refine (Value.upholds_storeAt hw.valid _ container (hi.mono hw.size) hv).bind fun _ x hx _ => ?_
    exact upholds_pure hx.valid trivial
  | branch span cond body otherwise ihc ihb iho =>
    intro s hs
    have hbody := keeps_block_of fun e hmem => ihb e hmem (he.part (by simp [Expr.parts, hmem]))
    have hother := keeps_block_of fun e hmem => iho e hmem (he.part (by simp [Expr.parts, hmem]))
    refine ((ihc (he.part (by simp [Expr.parts]))).asValue _ s hs).bind fun c t ht _ => ?_
    refine (upholds_noteValue ht.valid 3 _ c).bind fun _ u hu _ => ?_
    split
    · exact (hbody.inBlock u hu.valid).bind fun c w hw hc => upholds_pure hw.valid hc
    · exact (hother.inBlock u hu.valid).bind fun c w hw hc => upholds_pure hw.valid hc
  | forIn span name iterable body ihi ihb =>
    intro s hs
    have hbody := keeps_block_of fun e hmem => ihb e hmem (he.part (by simp [Expr.parts, hmem]))
    refine ((ihi (he.part (by simp [Expr.parts]))).asValue _ s hs).bind fun v t ht hv => ?_
    refine (Value.upholds_elements ht.valid hv).bind fun items u hu hitems => ?_
    exact (upholds_forLoop _ hbody hu.valid hitems).bind fun c w hw hc => upholds_pure hw.valid hc
  | loop span cond body ihc ihb =>
    intro s hs
    have hbody := keeps_block_of fun e hmem => ihb e hmem (he.part (by simp [Expr.parts, hmem]))
    have hcond := (ihc (he.part (by simp [Expr.parts]))).asValue cond
    exact (upholds_whileTrue hcond hbody _ hs).bind fun c t ht hc => upholds_pure ht.valid hc

theorem ValidCalls.eval (hm : m.ValidCalls) {e : Expr} (he : e.NumbersFit) :
    Keeps Value.Valid (m.eval e) := (hm.step e he).asValue e

theorem ValidCalls.values (hm : m.ValidCalls) {es : List Expr} (hes : ∀ e ∈ es, e.NumbersFit) :
    Keeps AllValid (m.values es) :=
  fun _ hs => upholds_values_of (fun e hmem => hm.step e (hes e hmem)) hs

theorem ValidCalls.block (hm : m.ValidCalls) {es : List Expr} (hes : ∀ e ∈ es, e.NumbersFit) :
    Keeps Completion.Valid (m.block es) :=
  keeps_block_of fun e hmem => hm.step e (hes e hmem)

end Machine

/-! ## Calls -/

/-- The numbers that are written in a program are in range. -/
def Program.NumbersFit (p : Program) : Prop := ∀ f ∈ p.functions, ∀ e ∈ f.body, e.NumbersFit

/-- Valid arguments make valid variables. -/
theorem Fun.valid_frame (f : Fun) {n : Nat} {vs : List Value} (hvs : AllValid n vs) :
    Scope.Valid n [f.frame vs] := by
  refine List.forall_mem_singleton.2 ?_
  rw [Fun.frame]
  have hpairs : ∀ pv ∈ f.params.zip vs, pv.2.Valid n := fun pv hpv => hvs _ (List.of_mem_zip hpv).2
  have hempty : ∀ entry ∈ ([] : Frame Value), entry.2.Valid n := by simp
  -- The parameters are declared one by one, from an empty frame on.
  generalize ([] : Frame Value) = frame at hempty ⊢
  generalize f.params.zip vs = pvs at hpairs ⊢
  induction pvs generalizing frame with
  | nil => exact hempty
  | cons pv pvs ih =>
    obtain ⟨hv, hrest⟩ := List.forall_mem_cons.1 hpairs
    exact ih _ (Frame.valid_declare hempty hv) hrest

namespace Program

variable {p : Program} {o : Settings}

/-- A call by name keeps states valid if the functions of the program do. -/
theorem upholds_dispatch {user : Fun → List Value → Run Value}
    (huser : ∀ f ∈ p.functions, ∀ vs s, s.Valid → AllValid s.heap.size vs →
      Upholds (user f vs) s Value.Valid)
    (hs : s.Valid) (name : String) {vs : List Value} (hvs : AllValid s.heap.size vs) :
    Upholds (p.dispatch user name vs) s Value.Valid := by
  unfold Program.dispatch
  split
  · refine (upholds_noteCall hs _ _).bind fun _ t ht _ => ?_
    exact Builtin.upholds_apply ht.valid _ (hvs.mono ht.size)
  · split
    · exact upholds_throw hs trivial
    · next f hfind =>
      refine (upholds_noteCall hs _ _).bind fun _ t ht _ => ?_
      refine (huser f (List.mem_of_find?_eq_some hfind) vs t ht.valid (hvs.mono ht.size)).bind
        fun v u hu hv => ?_
      exact (upholds_noteValue hu.valid 2 _ v).bind fun _ w hw _ =>
        upholds_pure hw.valid (hv.mono hw.size)

/-- Functions called with valid arguments give valid values, however deep calls are nested. -/
theorem NumbersFit.invoke (hp : p.NumbersFit) (o : Settings) (depth : Nat) :
    ∀ f ∈ p.functions, ∀ vs s, s.Valid → AllValid s.heap.size vs →
      Upholds (p.invoke o depth f vs) s Value.Valid := by
  induction depth with
  | zero => exact fun f _ vs s hs _ => upholds_throw hs trivial
  | succ depth ih =>
    intro f hf vs s hs hvs
    -- calls from the body are nested one level deeper, where the hypothesis applies
    have hm : Machine.ValidCalls ⟨p.dispatch (p.invoke o depth), o.rounds, o.forScope⟩ :=
      fun s name vs hs hvs => upholds_dispatch ih hs name hvs
    refine upholds_inCall hs (upholds_resultOf (hm.block (hp f hf) _ ?_))
    exact ⟨f.valid_frame hvs, hs.heap⟩

end Program

end Scriptlet
