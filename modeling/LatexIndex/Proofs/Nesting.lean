/-
LatexIndex/Proofs/Nesting.lean

Well nested markers, and the two searches for the marker that belongs to
another.

Markers are well nested (`Nested`) if every begin has an end of its name, with
well nested markers in between.  A reader with a stack decides that: begins put
their names on the stack and ends take them off (`nested_iff`).  The reader can
be run backwards, with the roles of begins and ends exchanged, and undoes what
it did (`stackAfter_reverse`).  The search for a begin is such a backward run
and the search for an end a forward run, each up to the first marker that finds
the stack empty (`openingBefore?_eq_some_iff`, `closingAfter?_eq_some_iff`).
-/
import Mathlib.Data.List.Basic
import LatexIndex.Markup.Environment

namespace LatexIndex.Markup

/-! ### Well nested markers -/

/-- Well nested markers: nothing, or an environment with well nested markers
inside it and after it. -/
inductive Nested : List Marker → Prop
  | nil : Nested []
  | around {o c : Marker} {inner rest : List Marker} :
      o.isOpen = true → c.isOpen = false → o.name = c.name → Nested inner → Nested rest →
      Nested (o :: (inner ++ c :: rest))

/-- The begin `o` and the end `c` belong together: they have one name and what
is between them is well nested. -/
def Matched (markers : List Marker) (o c : Marker) : Prop :=
  ∃ before inner after, markers = before ++ o :: (inner ++ c :: after) ∧
    o.isOpen = true ∧ c.isOpen = false ∧ o.name = c.name ∧ Nested inner

/-! ### Reading with a stack -/

/-- One marker read with a stack of names.  A marker of the kind `push` puts its
name on the stack, one of the other kind has to find it there. -/
def Marker.stack (push : Bool) (names : List String) (m : Marker) : Option (List String) :=
  if m.isOpen = push then some (m.name :: names)
  else match names with
    | [] => none
    | name :: names => if name = m.name then some names else none

/-- Markers read one after the other. -/
def stackAfter (push : Bool) (names : List String) (markers : List Marker) :
    Option (List String) :=
  markers.foldlM (Marker.stack push) names

variable {push : Bool} {names names' more : List String} {name : String} {m o c : Marker}
  {markers before after : List Marker}

@[simp] theorem stackAfter_nil : stackAfter push names [] = some names := rfl

@[simp] theorem stackAfter_cons :
    stackAfter push names (m :: markers)
      = (m.stack push names).bind fun names => stackAfter push names markers := rfl

theorem stackAfter_append (as bs : List Marker) :
    stackAfter push names (as ++ bs)
      = (stackAfter push names as).bind fun names => stackAfter push names bs :=
  List.foldlM_append

theorem Marker.stack_push (h : m.isOpen = push) : m.stack push names = some (m.name :: names) :=
  if_pos h

theorem Marker.stack_pop (h : m.isOpen ≠ push) : m.stack push (m.name :: names) = some names := by
  simp [stack, h]

/-- A marker that is not put on the stack is found on top of it. -/
theorem Marker.eq_of_stack_pop (h : m.isOpen ≠ push) (hs : m.stack push names = some names') :
    names = m.name :: names' := by
  unfold stack at hs
  rw [if_neg h] at hs
  split at hs
  · cases hs
  · split at hs
    · next heq =>
        obtain rfl := Option.some.inj hs
        rw [heq]
    · cases hs

/-- Read the other way round, a marker undoes what it did. -/
theorem Marker.stack_not (push : Bool) :
    m.stack push names = some names' ↔ m.stack (!push) names' = some names := by
  by_cases h : m.isOpen = push
  · have hnot : m.isOpen ≠ !push := by simp [h]
    rw [stack_push h]
    constructor
    · intro heq
      obtain rfl := Option.some.inj heq
      exact stack_pop hnot
    · intro hs
      rw [eq_of_stack_pop hnot hs]
  · have hnot : m.isOpen = !push := Bool.eq_not.mpr h
    rw [stack_push hnot]
    constructor
    · intro hs
      rw [eq_of_stack_pop h hs]
    · intro heq
      obtain rfl := Option.some.inj heq
      exact stack_pop h

/-- **Reading backwards** undoes reading forwards. -/
theorem stackAfter_reverse :
    stackAfter push names markers = some names' ↔
      stackAfter (!push) names' markers.reverse = some names := by
  induction markers generalizing names with
  | nil =>
      simp only [stackAfter_nil, List.reverse_nil, Option.some.injEq]
      exact eq_comm
  | cons m markers ih =>
      simp only [stackAfter_cons, List.reverse_cons, stackAfter_append, Option.bind_eq_some_iff,
        stackAfter_nil, ih, Marker.stack_not push]
      simp only [Option.some.injEq, exists_eq_right]
      exact exists_congr fun _ => and_comm

/-- What lies deeper in the stack is not touched. -/
theorem stackAfter_below (h : stackAfter push names markers = some names') :
    stackAfter push (names ++ more) markers = some (names' ++ more) := by
  induction markers generalizing names with
  | nil =>
      obtain rfl := Option.some.inj h
      rfl
  | cons m markers ih =>
      rw [stackAfter_cons, Option.bind_eq_some_iff] at h ⊢
      obtain ⟨next, hm, hrest⟩ := h
      refine ⟨next ++ more, ?_, ih hrest⟩
      by_cases hpush : m.isOpen = push
      · rw [Marker.stack_push hpush] at hm ⊢
        rw [← Option.some.inj hm]
        rfl
      · rw [Marker.eq_of_stack_pop hpush hm]
        exact Marker.stack_pop hpush

/-- An environment with well nested markers inside it leaves the stack as it
was. -/
theorem stackAfter_around {inner rest : List Marker} (ho : o.isOpen = push)
    (hc : c.isOpen ≠ push) (hname : o.name = c.name)
    (hinner : stackAfter push [] inner = some []) :
    stackAfter push names (o :: (inner ++ c :: rest)) = stackAfter push names rest := by
  have hbelow : stackAfter push (o.name :: names) inner = some (o.name :: names) :=
    stackAfter_below hinner
  rw [stackAfter_cons, Marker.stack_push ho, Option.bind_some, stackAfter_append, hbelow,
    Option.bind_some, stackAfter_cons, hname, Marker.stack_pop hc, Option.bind_some]

/-- Where the stack gets empty, the name on top of it was taken off by some
marker, and before that nothing was. -/
theorem exists_pop (h : stackAfter push (name :: names) markers = some []) :
    ∃ inner c rest, markers = inner ++ c :: rest ∧ stackAfter push [] inner = some [] ∧
      c.isOpen ≠ push ∧ c.name = name ∧ stackAfter push names rest = some [] := by
  induction hlen : markers.length using Nat.strongRecOn generalizing name names markers with
  | ind len ih =>
      rcases markers with - | ⟨m, markers⟩
      · cases h
      rw [stackAfter_cons, Option.bind_eq_some_iff] at h
      obtain ⟨next, hm, hrest⟩ := h
      by_cases hpush : m.isOpen = push
      · -- the name of `m` is taken off first, then the one below it
        rw [Marker.stack_push hpush] at hm
        obtain rfl := Option.some.inj hm
        obtain ⟨inner, c, rest, rfl, hinner, hc, hname, hrest⟩ :=
          ih _ (by simp at hlen; omega) hrest rfl
        obtain ⟨inner', c', rest', rfl, hinner', hc', hname', hrest'⟩ :=
          ih _ (by simp at hlen; omega) hrest rfl
        refine ⟨m :: (inner ++ c :: inner'), c', rest', by simp, ?_, hc', hname', hrest'⟩
        rw [stackAfter_around hpush hc hname.symm hinner]
        exact hinner'
      · obtain ⟨rfl, rfl⟩ := List.cons.inj (Marker.eq_of_stack_pop hpush hm)
        exact ⟨[], m, markers, rfl, rfl, hpush, rfl, hrest⟩

/-- **Well nested markers** are those that a reader with a stack accepts. -/
theorem nested_iff : Nested markers ↔ stackAfter true [] markers = some [] := by
  constructor
  · intro h
    induction h with
    | nil => rfl
    | around ho hc hname _ _ hinner hrest =>
        rw [stackAfter_around ho (by simp [hc]) hname hinner]
        exact hrest
  · intro h
    induction hlen : markers.length using Nat.strongRecOn generalizing markers with
    | ind len ih =>
        rcases markers with - | ⟨m, markers⟩
        · exact .nil
        rw [stackAfter_cons, Option.bind_eq_some_iff] at h
        obtain ⟨next, hm, hrest⟩ := h
        by_cases hopen : m.isOpen = true
        · rw [Marker.stack_push hopen] at hm
          obtain rfl := Option.some.inj hm
          obtain ⟨inner, c, rest, rfl, hinner, hc, hname, hrest⟩ := exists_pop hrest
          refine .around hopen (by simpa using hc) hname.symm (ih _ ?_ hinner rfl)
            (ih _ ?_ hrest rfl)
          · simp at hlen
            omega
          · simp at hlen
            omega
        · cases Marker.eq_of_stack_pop hopen hm

instance (markers : List Marker) : Decidable (Nested markers) :=
  decidable_of_iff _ nested_iff.symm

/-! ### Looking forward and back -/

theorem closingAfter?_begin (h : m.isOpen = true) :
    closingAfter? name names (m :: markers) = closingAfter? name (m.name :: names) markers := by
  simp [closingAfter?, h]

theorem closingAfter?_end (h : m.isOpen ≠ true) :
    closingAfter? name (m.name :: names) (m :: markers) = closingAfter? name names markers := by
  simp [closingAfter?, h]

/-- **Looking forward** reads well nested markers up to an end that finds the
stack empty. -/
theorem closingAfter?_eq_some_iff :
    closingAfter? name names markers = some c ↔ ∃ inner rest, markers = inner ++ c :: rest ∧
      stackAfter true names inner = some [] ∧ c.isOpen = false ∧ c.name = name := by
  constructor
  · intro h
    fun_induction closingAfter? name names markers with
    | case1 => cases h
    | case2 names m markers hopen ih =>
        obtain ⟨inner, rest, rfl, hinner, hc⟩ := ih h
        refine ⟨m :: inner, rest, rfl, ?_, hc⟩
        rw [stackAfter_cons, Marker.stack_push hopen]
        exact hinner
    | case3 m markers hopen hname =>
        obtain rfl := Option.some.inj h
        exact ⟨[], markers, rfl, rfl, by simpa using hopen, hname⟩
    | case4 => cases h
    | case5 m markers hopen names ih =>
        obtain ⟨inner, rest, rfl, hinner, hc⟩ := ih h
        refine ⟨m :: inner, rest, rfl, ?_, hc⟩
        rw [stackAfter_cons, Marker.stack_pop hopen]
        exact hinner
    | case6 => cases h
  · rintro ⟨inner, rest, rfl, hinner, hc, hname⟩
    induction inner generalizing names with
    | nil =>
        obtain rfl := Option.some.inj hinner
        simp [closingAfter?, hc, hname]
    | cons m inner ih =>
        rw [stackAfter_cons, Option.bind_eq_some_iff] at hinner
        obtain ⟨next, hm, hinner⟩ := hinner
        rw [List.cons_append]
        by_cases hopen : m.isOpen = true
        · rw [Marker.stack_push hopen] at hm
          obtain rfl := Option.some.inj hm
          rw [closingAfter?_begin hopen]
          exact ih hinner
        · rw [Marker.eq_of_stack_pop hopen hm, closingAfter?_end hopen]
          exact ih hinner

theorem openingBefore?_begin (h : m.isOpen = true) :
    openingBefore? (m.name :: names) (m :: markers) = openingBefore? names markers := by
  simp [openingBefore?, h]

theorem openingBefore?_end (h : m.isOpen ≠ true) :
    openingBefore? names (m :: markers) = openingBefore? (m.name :: names) markers := by
  simp [openingBefore?, h]

/-- **Looking back** reads well nested markers, last first, up to a begin that
finds the stack empty. -/
theorem openingBefore?_eq_some_iff :
    openingBefore? names markers = some o ↔ ∃ inner rest, markers = inner ++ o :: rest ∧
      stackAfter false names inner = some [] ∧ o.isOpen = true := by
  constructor
  · intro h
    fun_induction openingBefore? names markers with
    | case1 => cases h
    | case2 m markers hopen =>
        obtain rfl := Option.some.inj h
        exact ⟨[], markers, rfl, rfl, hopen⟩
    | case3 m markers hopen names ih =>
        obtain ⟨inner, rest, rfl, hinner, ho⟩ := ih h
        refine ⟨m :: inner, rest, rfl, ?_, ho⟩
        rw [stackAfter_cons, Marker.stack_pop (by simp [hopen])]
        exact hinner
    | case4 => cases h
    | case5 names m markers hopen ih =>
        obtain ⟨inner, rest, rfl, hinner, ho⟩ := ih h
        refine ⟨m :: inner, rest, rfl, ?_, ho⟩
        rw [stackAfter_cons, Marker.stack_push (by simpa using hopen)]
        exact hinner
  · rintro ⟨inner, rest, rfl, hinner, ho⟩
    induction inner generalizing names with
    | nil =>
        obtain rfl := Option.some.inj hinner
        simp [openingBefore?, ho]
    | cons m inner ih =>
        rw [stackAfter_cons, Option.bind_eq_some_iff] at hinner
        obtain ⟨next, hm, hinner⟩ := hinner
        rw [List.cons_append]
        by_cases hopen : m.isOpen = true
        · rw [Marker.eq_of_stack_pop (by simp [hopen]) hm, openingBefore?_begin hopen]
          exact ih hinner
        · rw [Marker.stack_push (by simpa using hopen)] at hm
          obtain rfl := Option.some.inj hm
          rw [openingBefore?_end hopen]
          exact ih hinner

/-- Looking back from a place finds the begin of the environment that is open
there. -/
theorem openingBefore?_reverse_eq_some_iff :
    openingBefore? [] before.reverse = some o ↔
      ∃ outer inner, before = outer ++ o :: inner ∧ Nested inner ∧ o.isOpen = true := by
  rw [openingBefore?_eq_some_iff]
  constructor
  · rintro ⟨inner, rest, hbefore, hinner, ho⟩
    refine ⟨rest.reverse, inner.reverse, ?_, ?_, ho⟩
    · rw [← List.reverse_reverse before, hbefore]
      simp
    · rw [nested_iff, stackAfter_reverse, List.reverse_reverse]
      exact hinner
  · rintro ⟨outer, inner, rfl, hinner, ho⟩
    refine ⟨inner.reverse, outer.reverse, by simp, ?_, ho⟩
    rw [nested_iff, stackAfter_reverse] at hinner
    exact hinner

/-! ### The stack between two markers -/

theorem Nested.append {as bs : List Marker} (ha : Nested as) (hb : Nested bs) :
    Nested (as ++ bs) := by
  rw [nested_iff] at ha hb ⊢
  rw [stackAfter_append, ha, Option.bind_some, hb]

/-- While a begin waits for its end, the stack is not empty. -/
theorem stackAfter_ne_nil {outer inner rest : List Marker} (ho : o.isOpen = true)
    (h : Nested (inner ++ rest)) : stackAfter true names (outer ++ o :: inner) ≠ some [] := by
  rw [nested_iff, stackAfter_append, Option.bind_eq_some_iff] at h
  obtain ⟨open', hinner, -⟩ := h
  rw [stackAfter_append]
  intro heq
  obtain ⟨below, -, hrest⟩ := Option.bind_eq_some_iff.mp heq
  rw [stackAfter_cons, Marker.stack_push ho, Option.bind_some] at hrest
  have hmore : stackAfter true (o.name :: below) inner = some (open' ++ o.name :: below) :=
    stackAfter_below hinner
  rw [hmore] at hrest
  simp at hrest

/-- If the markers are well nested, the stack at the cut tells what is open
there. -/
theorem exists_stackAfter (h : Nested (before ++ after)) :
    ∃ names, stackAfter true [] before = some names ∧ stackAfter true names after = some [] := by
  rwa [nested_iff, stackAfter_append, Option.bind_eq_some_iff] at h

/-- The begin of the environment that is on top of the stack at the cut. -/
theorem exists_opening (h : stackAfter true [] before = some (name :: names)) :
    ∃ outer o inner, before = outer ++ o :: inner ∧ Nested inner ∧ o.isOpen = true ∧
      o.name = name := by
  rw [stackAfter_reverse] at h
  obtain ⟨inner, o, outer, hsplit, hinner, ho, hname, -⟩ := exists_pop h
  refine ⟨outer.reverse, o, inner.reverse, ?_, ?_, by simpa using ho, hname⟩
  · rw [← List.reverse_reverse before, hsplit]
    simp
  · rw [nested_iff, stackAfter_reverse, List.reverse_reverse]
    exact hinner

end LatexIndex.Markup
