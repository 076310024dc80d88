/-
LatexIndex/Proofs/Ownership.lean

Which project has a file open, and which one is asked about it.

Every event about a file goes to the first project that covers it, and which
one that is may change while the file is open: a rebuild can find that the
file is a document of an older project as well.  From then on edits, closes
and questions go to the older project, while the buffer stays where it was.

`Kept` says what runs keep all the same.  The last text that was sent of a
file is in the buffers of some project (`Kept.current`), no project is without
a buffer, and every buffer belongs to a file that is open or that was closed
while another project had it (`strays`).  So nothing goes wrong exactly as
long as no project covers what a later one has open (`Owned`): then questions
are answered from the last text, and closing the last file closes the last
project.
-/
import LatexIndex.Proofs.Buffers
import LatexIndex.Proofs.Serving

namespace LatexIndex

open Markup

/-- A session can be started at every absolute path without `..` that a
buffer is open at. -/
theorem Session.create_ne_error {disk : Disk} {settings : Settings} {path : Path}
    {buffer : Buffer} (h : path.IsDirect) (failure : Failure) :
    create disk settings [(path, buffer)] path ≠ .error failure := by
  have hparts : ((disk.canonical? path).getD path.normalize).parts = path.parts := by
    unfold Disk.canonical?
    rcases hl : disk.lookUp path with reason | ⟨place, node⟩
    · exact h.parts_normalize
    · -- a direct path leads to its own place, wherever one starts
      have hplace : place = path.place := by
        rw [(Disk.walk_of_lookUp hl).1, h.parts_eq, Disk.walk_cons, Disk.walk_names]
        rfl
      rw [Option.getD_some, hplace, ← h.normalize_eq, h.parts_normalize]
  have hhas : Sources.has ⟨disk, [(path, buffer)]⟩
      ((disk.canonical? path).getD path.normalize) = true := by
    rw [Sources.has, Bool.or_eq_true]
    left
    simp [Buffers.find?, Path.same_iff.mpr hparts.symm]
  unfold create
  dsimp only
  rw [if_pos hhas]
  intro hcontra
  cases hcontra

namespace Serving

open Server

/-! ### Files that were closed somewhere else -/

/-- The files of `left` after a turn: a file that is closed belongs to them if
some project still has it open. -/
def Turn.strays (left : List Path) (t : Turn) : List Path :=
  match t.event with
  | .closed path =>
    let others := left.filter (!·.same path.normalize)
    if t.state.projects.any (·.session.isOpen path) then others ++ [path.normalize] else others
  | _ => left

/-- The files whose last close left them open in some project. -/
def strays (turns : List Turn) : List Path :=
  turns.foldl Turn.strays []

theorem strays_concat (turns : List Turn) (t : Turn) :
    strays (turns ++ [t]) = t.strays (strays turns) :=
  List.foldl_concat Turn.strays [] t turns

theorem strays_concat_of_ne {turns : List Turn} {t : Turn} (h : ∀ path, t.event ≠ .closed path) :
    strays (turns ++ [t]) = strays turns := by
  rw [strays_concat, Turn.strays]
  split
  · next path he => exact absurd he (h path)
  · rfl

/-- No project covers a file that a later one has open. -/
def Owned (s : State) : Prop :=
  s.projects.Pairwise fun q p => ∀ path, p.session.isOpen path = true → q.covers path = false

/-- One project is in nobody's way. -/
theorem owned_of_length_le_one {s : State} (h : s.projects.length ≤ 1) : Owned s := by
  obtain ⟨projects⟩ := s
  rcases projects with - | ⟨p, - | ⟨q, rest⟩⟩
  · exact List.Pairwise.nil
  · exact List.pairwise_singleton _ p
  · simp at h

/-! ### What runs keep -/

/-- A file was closed while another project than the one asked had it open. -/
def Stray (turns : List Turn) (path : Path) : Prop :=
  ∃ left ∈ strays turns, left.same path = true

/-- Some project has a file open with a text. -/
def HeldWith (s : State) (path : Path) (buffer : Buffer) : Prop :=
  ∃ p ∈ s.projects, p.session.buffers.find? path = some buffer

/-- Some project has a file open. -/
def Held (s : State) (path : Path) : Prop :=
  ∃ p ∈ s.projects, (p.session.buffers.find? path).isSome = true

/-- What the turns of a run say about one file. -/
structure KeptAt (turns : List Turn) (s : State) (path : Path) : Prop where
  /-- The last text of an open file is in some project. -/
  current : ∀ buffer, (texts turns).find? path = some buffer → HeldWith s path buffer
  /-- A file that a project has open is open, or was closed elsewhere. -/
  accounted : Held s path → ((texts turns).find? path).isSome = true ∨ Stray turns path
  /-- What was closed elsewhere is still open. -/
  astray : Stray turns path → Held s path

/-- What the turns of a run say about the buffers of its projects. -/
structure Kept (turns : List Turn) (s : State) : Prop where
  inhabited : ∀ p ∈ s.projects, p.session.buffers ≠ []
  /-- Buffers are kept under normal paths. -/
  normal : ∀ p ∈ s.projects, ∀ e ∈ p.session.buffers, e.1.normalize.parts = e.1.parts
  at_ : ∀ path, KeptAt turns s path

theorem covers_of_isOpen {p : Project} {path : Path} (h : p.session.isOpen path = true) :
    p.covers path = true := by
  rw [Project.covers, h]
  simp

theorem HeldWith.held {s : State} {path : Path} {buffer : Buffer} (h : HeldWith s path buffer) :
    Held s path := by
  obtain ⟨p, hp, hfind⟩ := h
  exact ⟨p, hp, by rw [hfind]; rfl⟩

variable {turns : List Turn} {s s' : State} {e : Event} {path other : Path} {buffer : Buffer}
  {before after : List Project} {p : Project} {notices : List Notice} {t : Turn}

/-- A turn that does not concern a file keeps what is said about it. -/
theorem KeptAt.transfer (h : KeptAt turns s path)
    (htexts : (texts (turns ++ [t])).find? path = (texts turns).find? path)
    (hstray : Stray (turns ++ [t]) path ↔ Stray turns path)
    (hforth : ∀ buffer, HeldWith s path buffer → HeldWith s' path buffer)
    (hback : Held s' path → Held s path) : KeptAt (turns ++ [t]) s' path where
  current := by
    intro buffer hbuffer
    rw [htexts] at hbuffer
    exact hforth buffer (h.current buffer hbuffer)
  accounted := by
    intro hheld
    rw [htexts, hstray]
    exact h.accounted (hback hheld)
  astray := by
    intro hs
    obtain ⟨p, hp, hfind⟩ := h.astray (hstray.mp hs)
    obtain ⟨buffer, hbuffer⟩ := Option.isSome_iff_exists.mp hfind
    exact (hforth buffer ⟨p, hp, hbuffer⟩).held

/-- A file whose text was just sent to some project. -/
theorem KeptAt.sent (htexts : (texts (turns ++ [t])).find? path = some buffer)
    (hheld : HeldWith s' path buffer) : KeptAt (turns ++ [t]) s' path where
  current := by
    intro b hb
    obtain rfl : buffer = b := Option.some.inj (htexts.symm.trans hb)
    exact hheld
  accounted := fun _ => .inl (by rw [htexts]; rfl)
  astray := fun _ => hheld.held

/-! ### What a turn does to a file -/

theorem exists_mem_replace {P : Project → Prop} {q : Project} (h : P q ↔ P p) :
    (∃ x ∈ before ++ q :: after, P x) ↔ ∃ x ∈ before ++ p :: after, P x := by
  simp only [List.mem_append, List.mem_cons, or_and_right, exists_or, exists_eq_left, h]

/-- A project that is dropped has no file open. -/
theorem heldWith_dropIdle (s : State) :
    HeldWith s.dropIdle.1 path buffer ↔ HeldWith s path buffer := by
  constructor
  · rintro ⟨p, hp, hfind⟩
    exact ⟨p, List.mem_of_mem_filter hp, hfind⟩
  · rintro ⟨p, hp, hfind⟩
    refine ⟨p, List.mem_filter.mpr ⟨hp, ?_⟩, hfind⟩
    have hne : p.session.buffers ≠ [] := Buffers.ne_nil_of_find? (by rw [hfind]; rfl)
    simpa [Session.hasOpenBuffers] using hne

theorem held_iff : Held s path ↔ ∃ buffer, HeldWith s path buffer := by
  constructor
  · rintro ⟨p, hp, hfind⟩
    obtain ⟨buffer, hbuffer⟩ := Option.isSome_iff_exists.mp hfind
    exact ⟨buffer, p, hp, hbuffer⟩
  · rintro ⟨buffer, h⟩
    exact h.held

theorem held_of_same (h : path.same other = true) : Held s path ↔ Held s other := by
  simp only [Held, Buffers.find?_eq_of_same h]

/-- The file that was closed is astray if some project still has it open. -/
theorem stray_of_closed (ht : t.event = .closed path) (h : path.normalize.same other = true) :
    Stray (turns ++ [t]) other ↔ Held t.state other := by
  have hheld : Held t.state other ↔ t.state.projects.any (·.session.isOpen path) = true := by
    rw [← held_of_same h, List.any_eq_true]
    rfl
  have hothers : ∀ left ∈ (strays turns).filter (!·.same path.normalize),
      ¬ left.same other = true := by
    intro left hleft hsame
    have hne := (List.mem_filter.mp hleft).2
    rw [Bool.not_eq_true', ← Bool.not_eq_true, Path.same_iff, Path.same_iff.mp h] at hne
    exact hne (Path.same_iff.mp hsame)
  rw [Stray, strays_concat, Turn.strays, ht, hheld]
  dsimp only
  split
  · next hany =>
      rw [iff_true_right hany]
      exact ⟨path.normalize, by simp, h⟩
  · next hany =>
      rw [iff_false_right hany]
      rintro ⟨left, hleft, hsame⟩
      exact hothers left hleft hsame

/-- Closing a file says nothing about the others. -/
theorem stray_of_closed_other (ht : t.event = .closed path)
    (h : ¬ path.normalize.same other = true) :
    Stray (turns ++ [t]) other ↔ Stray turns other := by
  have hkeep : ∀ left : Path, left.same other = true → ¬ left.same path.normalize = true :=
    fun left ho hp => h (by rw [Path.same_iff, ← Path.same_iff.mp hp, Path.same_iff.mp ho])
  rw [Stray, strays_concat, Turn.strays, ht]
  dsimp only
  constructor
  · rintro ⟨left, hleft, hsame⟩
    refine ⟨left, ?_, hsame⟩
    split at hleft
    · rcases List.mem_append.mp hleft with hleft | hleft
      · exact List.mem_of_mem_filter hleft
      · rw [List.mem_singleton.mp hleft] at hsame
        exact absurd hsame h
    · exact List.mem_of_mem_filter hleft
  · rintro ⟨left, hleft, hsame⟩
    have hmem : left ∈ (strays turns).filter (!·.same path.normalize) :=
      List.mem_filter.mpr ⟨hleft, by simpa using hkeep left hsame⟩
    refine ⟨left, ?_, hsame⟩
    split
    · exact List.mem_append_left _ hmem
    · exact hmem

/-! ### The step -/

namespace Kept

theorem initial : Kept [] .empty where
  inhabited := by simp [State.empty]
  normal := by simp [State.empty]
  at_ := fun path =>
    { current := by simp [texts]
      accounted := by simp [Held, State.empty]
      astray := by simp [Stray, strays] }

/-- A file that is open is covered. -/
theorem exists_covers (h : Kept turns s)
    (hopen : ((texts turns).find? path.normalize).isSome = true) :
    ∃ p ∈ s.projects, p.covers path = true := by
  obtain ⟨buffer, hbuffer⟩ := Option.isSome_iff_exists.mp hopen
  obtain ⟨p, hp, hfind⟩ := (h.at_ path.normalize).current buffer hbuffer
  exact ⟨p, hp, covers_of_isOpen (by rw [Session.isOpen, hfind]; rfl)⟩

/-- A file of a project is opened or changed. -/
theorem edited (h : Kept turns s) (hr : RoutedTo s path before p after)
    (ht : t.event.edit? = some (.opened path buffer)) (hne : ∀ path, t.event ≠ .closed path) :
    Kept (turns ++ [t]) ⟨before ++ Serving.edited p path buffer :: after⟩ := by
  have hp : p ∈ s.projects := by simp [hr.projects]
  have hfind : ∀ other, (Serving.edited p path buffer).session.buffers.find? other
      = if path.normalize.same other then some buffer else p.session.buffers.find? other :=
    fun other => Buffers.find?_insert
  have htexts : ∀ other, (texts (turns ++ [t])).find? other
      = if path.normalize.same other then some buffer else (texts turns).find? other := by
    intro other
    rw [texts_concat_of_edit? ht, Edit.apply, Buffers.find?_insert]
  constructor
  · intro q hq
    rcases List.mem_append.mp hq with hq | hq
    · exact h.inhabited q (by simp [hr.projects, hq])
    · rcases List.mem_cons.mp hq with rfl | hq
      · have hsome := hfind path.normalize
        rw [if_pos (Path.same_refl _)] at hsome
        exact Buffers.ne_nil_of_find? (by rw [hsome]; rfl)
      · exact h.inhabited q (by simp [hr.projects, hq])
  · intro q hq entry hentry
    rcases List.mem_append.mp hq with hq | hq
    · exact h.normal q (by simp [hr.projects, hq]) entry hentry
    · rcases List.mem_cons.mp hq with rfl | hq
      · rcases Buffers.mem_insert hentry with hpath | ⟨entry', hentry', hpath⟩
        · rw [hpath, Path.normalize_normalize]
        · rw [← hpath]
          exact h.normal p hp entry' hentry'
      · exact h.normal q (by simp [hr.projects, hq]) entry hentry
  · intro other
    by_cases hsame : path.normalize.same other = true
    · have hnow : (texts (turns ++ [t])).find? other = some buffer := by rw [htexts, if_pos hsame]
      exact .sent hnow ⟨Serving.edited p path buffer, by simp, by rw [hfind, if_pos hsame]⟩
    · have hheld : ∀ b, HeldWith ⟨before ++ Serving.edited p path buffer :: after⟩ other b ↔
          HeldWith s other b := by
        intro b
        rw [HeldWith, HeldWith, hr.projects]
        exact exists_mem_replace (by rw [hfind, if_neg hsame])
      refine (h.at_ other).transfer ?_ ?_ (fun b => (hheld b).mpr) ?_
      · rw [htexts, if_neg hsame]
      · rw [Stray, Stray, strays_concat_of_ne hne]
      · rw [held_iff, held_iff]
        exact fun ⟨b, hb⟩ => ⟨b, (hheld b).mp hb⟩

/-- A project is started at a file. -/
theorem started (h : Kept turns s) (hpath : path.IsDirect)
    (hp : p.session.buffers = [(path, buffer)]) (ht : t.event = .opened path buffer) :
    Kept (turns ++ [t]) ⟨s.projects ++ [p]⟩ := by
  have hsame : ∀ other, path.normalize.same other = path.same other := by
    intro other
    rw [Path.same, Path.same, hpath.parts_normalize]
  have hfind : ∀ other, p.session.buffers.find? other
      = if path.normalize.same other then some buffer else none := by
    intro other
    rw [hp, Buffers.find?_cons, hsame]
    rfl
  have htexts : ∀ other, (texts (turns ++ [t])).find? other
      = if path.normalize.same other then some buffer else (texts turns).find? other := by
    intro other
    have hedit : t.event.edit? = some (.opened path buffer) := by rw [ht]; rfl
    rw [texts_concat_of_edit? hedit, Edit.apply, Buffers.find?_insert]
  constructor
  · intro q hq
    rcases List.mem_append.mp hq with hq | hq
    · exact h.inhabited q hq
    · rw [List.mem_singleton.mp hq, hp]
      exact List.cons_ne_nil _ _
  · intro q hq entry hentry
    rcases List.mem_append.mp hq with hq | hq
    · exact h.normal q hq entry hentry
    · rw [List.mem_singleton.mp hq, hp, List.mem_singleton] at hentry
      rw [hentry]
      exact hpath.parts_normalize
  · intro other
    by_cases hother : path.normalize.same other = true
    · have hnow : (texts (turns ++ [t])).find? other = some buffer := by rw [htexts, if_pos hother]
      exact .sent hnow ⟨p, by simp, by rw [hfind, if_pos hother]⟩
    · have hheld : ∀ b, HeldWith ⟨s.projects ++ [p]⟩ other b ↔ HeldWith s other b := by
        intro b
        simp [HeldWith, or_and_right, exists_or, hfind, hother]
      refine (h.at_ other).transfer ?_ ?_ (fun b => (hheld b).mpr) ?_
      · rw [htexts, if_neg hother]
      · rw [Stray, Stray, strays_concat_of_ne (by simp [ht])]
      · rw [held_iff, held_iff]
        rintro ⟨b, hb⟩
        exact ⟨b, (hheld b).mp hb⟩

/-- A file of a project is closed. -/
theorem closed (h : Kept turns s) (hr : RoutedTo s path before p after)
    (ht : t.event = .closed path)
    (hstate : t.state = (State.dropIdle ⟨before ++ erased p path :: after⟩).1) :
    Kept (turns ++ [t]) t.state := by
  have hfind : ∀ other, (erased p path).session.buffers.find? other
      = if path.normalize.same other then none else p.session.buffers.find? other :=
    fun other => Buffers.find?_erase
  have htexts : ∀ other, (texts (turns ++ [t])).find? other
      = if path.normalize.same other then none else (texts turns).find? other := by
    intro other
    have hedit : t.event.edit? = some (.closed path) := by rw [ht]; rfl
    rw [texts_concat_of_edit? hedit, Edit.apply, Buffers.find?_erase]
  constructor
  · intro q hq
    rw [hstate] at hq
    simpa [Session.hasOpenBuffers] using (List.mem_filter.mp hq).2
  · intro q hq entry hentry
    rw [hstate] at hq
    have hq := List.mem_of_mem_filter hq
    rcases List.mem_append.mp hq with hq | hq
    · exact h.normal q (by simp [hr.projects, hq]) entry hentry
    · rcases List.mem_cons.mp hq with rfl | hq
      · exact h.normal p (by simp [hr.projects]) entry (List.mem_of_mem_filter hentry)
      · exact h.normal q (by simp [hr.projects, hq]) entry hentry
  · intro other
    by_cases hsame : path.normalize.same other = true
    · have hstray : Stray (turns ++ [t]) other ↔ Held t.state other := stray_of_closed ht hsame
      refine ⟨?_, fun hheld => .inr (hstray.mpr hheld), hstray.mp⟩
      intro b hb
      rw [htexts, if_pos hsame] at hb
      cases hb
    · have hheld : ∀ b, HeldWith t.state other b ↔ HeldWith s other b := by
        intro b
        rw [hstate, heldWith_dropIdle, HeldWith, HeldWith, hr.projects]
        exact exists_mem_replace (by rw [hfind, if_neg hsame])
      refine (h.at_ other).transfer ?_ (stray_of_closed_other ht hsame) (fun b => (hheld b).mpr) ?_
      · rw [htexts, if_neg hsame]
      · rw [held_iff, held_iff]
        exact fun ⟨b, hb⟩ => ⟨b, (hheld b).mp hb⟩

/-- Work on the projects leaves their buffers alone. -/
theorem worked (h : Kept turns s) {results : List (Project × List Notice)}
    (hw : List.Forall₂ (fun p r => Worked e p r.1 r.2) s.projects results)
    (ht : t.event.edit? = none) : Kept (turns ++ [t]) ⟨results.map (·.1)⟩ := by
  obtain ⟨hforth, hback⟩ := exists_worked hw
  have hne : ∀ path, t.event ≠ .closed path := by
    intro path hc
    rw [hc] at ht
    cases ht
  constructor
  · rw [List.forall_mem_map]
    intro r hr
    obtain ⟨p, hp, hwork⟩ := hback r hr
    rw [hwork.buffers]
    exact h.inhabited p hp
  · rw [List.forall_mem_map]
    intro r hr
    obtain ⟨p, hp, hwork⟩ := hback r hr
    rw [hwork.buffers]
    exact h.normal p hp
  · intro other
    refine (h.at_ other).transfer ?_ ?_ ?_ ?_
    · rw [texts_concat_of_edit?_eq_none ht]
    · rw [Stray, Stray, strays_concat_of_ne hne]
    · rintro b ⟨p, hp, hfind⟩
      obtain ⟨r, hr, hwork⟩ := hforth p hp
      exact ⟨r.1, List.mem_map_of_mem hr, by rw [hwork.buffers, hfind]⟩
    · rintro ⟨q, hq, hfind⟩
      obtain ⟨r, hr, rfl⟩ := List.mem_map.mp hq
      obtain ⟨p, hp, hwork⟩ := hback r hr
      exact ⟨p, hp, by rw [← hwork.buffers, hfind]⟩

/-- Every event keeps the buffers accounted for. -/
theorem step (h : Kept turns s) (hallowed : e.Allowed (texts turns))
    (ha : Applied s e s' notices) : Kept (turns ++ [⟨e, s', notices⟩]) s' := by
  cases ha with
  | edited event routed =>
      rcases event with rfl | rfl
      · exact h.edited routed rfl (by simp)
      · exact h.edited routed rfl (by simp)
  | started event _ buffers =>
      subst event
      exact h.started hallowed buffers rfl
  | failed event create =>
      subst event
      exact absurd create (Session.create_ne_error hallowed _)
  | @missed path event uncovered =>
      -- a file that is open is covered
      have hopen : ((texts turns).find? path.normalize).isSome = true := by
        rcases event with ⟨buffer, rfl⟩ | rfl <;> exact hallowed
      obtain ⟨p, hp, hcovers⟩ := h.exists_covers hopen
      rw [uncovered p hp] at hcovers
      cases hcovers
  | @closed path before after p event routed =>
      exact h.closed routed (t := ⟨e, _, _⟩) event rfl
  | worked event work => exact h.worked work event

end Kept

theorem kept_of_run (h : Run turns s) : Kept turns s := by
  induction h with
  | start => exact .initial
  | step host now _ hallowed ih => exact ih.step hallowed (applied_apply host now _ _)

/-! ### Closing -/

/-- **What is left open**: a server has no project exactly if the editor has
closed all it opened, and no file was closed while another project had it. -/
theorem Kept.projects_eq_nil_iff (h : Kept turns s) :
    s.projects = [] ↔ texts turns = [] ∧ strays turns = [] := by
  constructor
  · intro hnil
    have hfree : ∀ path, ¬ Held s path := by
      rintro path ⟨p, hp, -⟩
      rw [hnil] at hp
      cases hp
    constructor
    · by_contra hne
      obtain ⟨e, -, hsome⟩ := Buffers.exists_find? hne
      obtain ⟨buffer, hbuffer⟩ := Option.isSome_iff_exists.mp hsome
      exact hfree e.1 ((h.at_ e.1).current buffer hbuffer).held
    · rw [List.eq_nil_iff_forall_not_mem]
      intro left hleft
      exact hfree left ((h.at_ left).astray ⟨left, hleft, Path.same_refl left⟩)
  · rintro ⟨htexts, hstrays⟩
    rw [List.eq_nil_iff_forall_not_mem]
    intro p hp
    obtain ⟨e, -, hsome⟩ := Buffers.exists_find? (h.inhabited p hp)
    rcases (h.at_ e.1).accounted ⟨p, hp, hsome⟩ with hopen | ⟨left, hleft, -⟩
    · rw [htexts] at hopen
      cases hopen
    · rw [hstrays] at hleft
      cases hleft

/-- In a state where no project covers what a later one has open, a close
reaches every project that has the file open. -/
theorem isOpen_eq_false_of_closed (ho : Owned s) (hr : RoutedTo s path before p after) :
    ∀ q ∈ (State.dropIdle ⟨before ++ erased p path :: after⟩).1.projects,
      q.session.isOpen path = false := by
  intro q hq
  have hq := List.mem_of_mem_filter hq
  rcases List.mem_append.mp hq with hq | hq
  · rw [← Bool.not_eq_true]
    intro hopen
    have hcovers := hr.earlier q hq
    rw [covers_of_isOpen hopen] at hcovers
    cases hcovers
  · rcases List.mem_cons.mp hq with rfl | hq
    · show ((p.session.buffers.erase path.normalize).find? path.normalize).isSome = false
      rw [Buffers.find?_erase, if_pos (Path.same_refl _)]
      rfl
    · rw [← Bool.not_eq_true]
      intro hopen
      rw [Owned, hr.projects] at ho
      have hcovers := (List.pairwise_cons.mp (List.pairwise_append.mp ho).2.1).1 q hq path hopen
      rw [hr.covers] at hcovers
      cases hcovers

/-- The state a run is in is that of its last turn. -/
theorem Run.owned (h : Run turns s) (ho : ∀ t ∈ turns, Owned t.state) : Owned s := by
  cases h with
  | start => exact List.Pairwise.nil
  | step host now _ _ => exact ho _ (List.mem_append_right _ List.mem_cons_self)

/-- Nothing is closed elsewhere while no project covers what a later one has
open. -/
theorem strays_eq_nil (h : Run turns s) (ho : ∀ t ∈ turns, Owned t.state) :
    strays turns = [] := by
  induction h with
  | start => rfl
  | @step turns s e host now hrun hallowed ih =>
      have hbefore : ∀ t ∈ turns, Owned t.state := fun t ht => ho t (List.mem_append_left _ ht)
      have hnil := ih hbefore
      by_cases hclosed : ∃ path, e = .closed path
      · obtain ⟨path, rfl⟩ := hclosed
        have hnone : ∀ q ∈ ((Event.closed path).apply host now s).1.projects,
            q.session.isOpen path = false := by
          have ha := applied_apply host now s (.closed path)
          generalize (Event.closed path).apply host now s = r at ha ⊢
          obtain ⟨s', notices⟩ := r
          cases ha with
          | edited event => rcases event with event | event <;> cases event
          | started event => cases event
          | failed event => cases event
          | missed event uncovered =>
              obtain ⟨p, hp, hcovers⟩ := (kept_of_run hrun).exists_covers hallowed
              rcases event with ⟨_, event⟩ | event <;> cases event
              rw [uncovered p hp] at hcovers
              cases hcovers
          | closed event routed =>
              cases event
              exact isOpen_eq_false_of_closed (hrun.owned hbefore) routed
          | worked event => cases event
        rw [strays_concat, hnil, Turn.strays]
        dsimp only
        rw [if_neg]
        · rfl
        · rw [List.any_eq_true]
          rintro ⟨q, hq, hopen⟩
          rw [hnone q hq] at hopen
          cases hopen
      · rw [strays_concat_of_ne (fun path hp => hclosed ⟨path, hp⟩), hnil]

/-! ### Questions -/

/-- A line of a text, with its break. -/
def lineOf? (text : String) (line : Nat) : Option String :=
  (Text.bufferLines text.toList)[line]?.map String.ofList

/-- The questions about a file are answered from a text, and from what `p`
knows of its project. -/
structure AnswersFrom (s : State) (p : Project) (path : Path) (text : String) : Prop where
  environment : ∀ host line, s.environment? host path line = locate? text line
  completions : ∀ host line column, (s.completions host path line column).2 =
    (lineOf? text line).bind fun l => (Cursor.typingAt? l.toList (State.position l column)).map
      fun typing => Completion.complete
        ((p.session.ready host.disk).knowledge host.disk host.fontListing)
        typing.context typing.word
  definitions : ∀ host line column, (s.definitions host path line column).2 =
    (lineOf? text line).bind fun l => (p.session.ready host.disk).snapshot.definitionsAt?
      host.disk path.normalize l.toList (State.position l column)

/-- The text of a buffer is what is read. -/
theorem text?_of_find? {session : Session} (disk : Disk)
    (h : session.buffers.find? path.normalize = some buffer) :
    session.text? disk path = some buffer.text := by
  rw [Session.text?, Sources.read, h]
  rfl

/-- Questions about a file go to the first project that covers it, and are
answered from the text that it has of the file. -/
theorem RoutedTo.answersFrom (hr : RoutedTo s path before p after)
    (h : p.session.buffers.find? path.normalize = some buffer) :
    AnswersFrom s p path buffer.text := by
  have hline : ∀ disk line, p.session.lineText? disk path line = lineOf? buffer.text line := by
    intro disk line
    rw [Session.lineText?, text?_of_find? disk h, lineOf?, Option.map_eq_bind]
    rfl
  have hask : ∀ {β : Type} (question : Session → Session × Option β),
      (s.ask path question).2 = (question p.session).2 := by
    intro β question
    rw [State.ask, hr.change?]
  constructor
  · intro host line
    simp [State.environment?, hr.project?, Session.environmentAt?, text?_of_find? host.disk h]
  · intro host line column
    rw [State.completions, State.askAt, hask, hline]
    rcases hl : lineOf? buffer.text line with - | l
    · rfl
    · simp only [Session.completeAt?, hline, hl, Option.bind_some]
      split
      · next typing ht => simp [ht, Session.complete]
      · next ht => simp [ht]
  · intro host line column
    rw [State.definitions, State.askAt, hask, hline]
    rcases hl : lineOf? buffer.text line with - | l
    · rfl
    · simp [Session.definitionsAt?, hline, hl]

/-- What the machine, and not a buffer, has of a file. -/
theorem RoutedTo.environment?_of_disk (hr : RoutedTo s path before p after)
    (h : p.session.isOpen path = false) (host : Host) (line : Nat) :
    s.environment? host path line
      = (host.disk.read path.normalize).toOption.bind (locate? · line) := by
  have hfind : p.session.buffers.find? path.normalize = none := by
    simpa [Session.isOpen] using h
  have htext : p.session.text? host.disk path = (host.disk.read path.normalize).toOption := by
    rw [Session.text?, Sources.read, hfind]
    rcases host.disk.read path.normalize with - | text <;> rfl
  rw [State.environment?, hr.project?, ← htext]
  rfl

/-- **Which text a question is answered from.**  At any moment, the last text
that was sent of an open file is a buffer of some project.  Questions are
answered from it unless an older project covers the file, so always while no
project covers what a later one has open; an older project that covers the
file and does not have it open answers from the disk. -/
theorem open_file_answers (h : Run turns s)
    (hopen : (texts turns).find? path.normalize = some buffer) :
    (∃ before p after, s.projects = before ++ p :: after ∧
      p.session.buffers.find? path.normalize = some buffer ∧
      ((∀ q ∈ before, q.covers path = false) → AnswersFrom s p path buffer.text)) ∧
    (Owned s → ∃ p ∈ s.projects, AnswersFrom s p path buffer.text) ∧
    ∀ before q after, RoutedTo s path before q after → q.session.isOpen path = false →
      ∀ host line, s.environment? host path line
        = (host.disk.read path.normalize).toOption.bind (locate? · line) := by
  obtain ⟨p, hp, hfind⟩ := ((kept_of_run h).at_ path.normalize).current buffer hopen
  obtain ⟨before, after, hprojects⟩ := List.append_of_mem hp
  have hisOpen : p.session.isOpen path = true := by
    rw [Session.isOpen, hfind]
    rfl
  have hanswers : (∀ q ∈ before, q.covers path = false) → AnswersFrom s p path buffer.text :=
    fun hearlier =>
      RoutedTo.answersFrom ⟨hprojects, hearlier, covers_of_isOpen hisOpen⟩ hfind
  refine ⟨⟨before, p, after, hprojects, hfind, hanswers⟩, fun ho => ⟨p, hp, hanswers ?_⟩,
    fun before q after hr hclosed => hr.environment?_of_disk hclosed⟩
  intro q hq
  rw [Owned, hprojects] at ho
  exact (List.pairwise_append.mp ho).2.2 q hq p List.mem_cons_self path hisOpen

/-- A machine with a file that holds an environment. -/
def draftHost : Host :=
  ⟨⟨[(["b.tex"], .file "\\begin{old}\n\\end{old}".toUTF8)], [], "/"⟩, ""⟩

/-- A document that includes the file. -/
def draftMaster : Buffer :=
  ⟨"\\documentclass{a}\\input{b}", 1⟩

/-- The file as it is being edited. -/
def draftPart : Buffer :=
  ⟨"\\documentclass{a}\n\\begin{new}\n\\end{new}", 1⟩

theorem open_file_answers_changed : ∃ turns s, Run turns s ∧
    (texts turns).find? ⟨"/b.tex"⟩ = some draftPart ∧
    ∃ p ∈ s.projects, AnswersFrom s p ⟨"/b.tex"⟩ draftPart.text := by
  have hopened := Run.step (e := .opened ⟨"/b.tex"⟩ draftMaster) draftHost 0 .start (by decide)
  have hrun := Run.step (e := .changed ⟨"/b.tex"⟩ draftPart) draftHost 0 hopened (by decide)
  exact ⟨_, _, hrun, by decide, (open_file_answers hrun (by decide)).2.1
    (owned_of_length_le_one (by decide))⟩

theorem open_file_read_from_disk : ∃ turns s, Run turns s ∧
    (texts turns).find? ⟨"/b.tex"⟩ = some draftPart ∧
    (locate? draftPart.text 1).map (·.name) = some "new" ∧
    (s.environment? draftHost ⟨"/b.tex"⟩ 1).map (·.name) = some "old" := by
  have hmaster := Run.step (e := .opened ⟨"/a.tex"⟩ draftMaster) draftHost 0 .start (by decide)
  have hpart := Run.step (e := .opened ⟨"/b.tex"⟩ draftPart) draftHost 0 hmaster (by decide)
  have hrun := Run.step (e := .waited) draftHost 300 hpart trivial
  exact ⟨_, _, hrun, by decide, by decide, rfl⟩

end Serving

end LatexIndex
