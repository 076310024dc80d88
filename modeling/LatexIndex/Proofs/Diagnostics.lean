/-
LatexIndex/Proofs/Diagnostics.lean

What an editor shows of the diagnostics it was told.

The diagnostics of a file replace those told before, so what is shown of a
file is what the last notice about it said (`shown`).  Telling the warnings of
a report brings what is shown up to date, provided that the project remembers
which files something is shown of (`shown_publish`); and it does remember them
(`accounted_of_run`).  So a server without projects leaves nothing behind.

There are three ways to install a snapshot, and one of them tells nothing: the
first question builds a project that was not built.  What follows from it for
a server with one project is the last theorem.
-/
import LatexIndex.Proofs.Listing
import LatexIndex.Proofs.Ownership

namespace LatexIndex

namespace Serving

open Server

/-! ### What is shown -/

/-- The diagnostics that a notice gives a file. -/
def about? (path : Path) : Notice → Option (List Diagnostic)
  | .log _ => none
  | .diagnostics other items => if other.same path then some items else none

/-- The diagnostics an editor shows for a file after some notices. -/
def shown (notices : List Notice) (path : Path) : List Diagnostic :=
  (notices.filterMap (about? path)).getLast?.getD []

variable {notices more : List Notice} {path other : Path} {warnings : List Warning}
  {published : List Path} {items : List Diagnostic} {n : Notice}

theorem about?_eq_some : about? path n = some items ↔
    ∃ other, n = .diagnostics other items ∧ other.same path = true := by
  cases n with
  | log message => simp [about?]
  | diagnostics other items' => simp [about?, and_comm]

/-- Notices about other files change nothing. -/
theorem shown_append_of_none (h : ∀ n ∈ more, about? path n = none) :
    shown (notices ++ more) path = shown notices path := by
  have hnil : more.filterMap (about? path) = [] := List.filterMap_eq_nil_iff.mpr h
  rw [shown, List.filterMap_append, hnil, List.append_nil]
  rfl

/-- What is shown is what some notice says, if there is one about the file. -/
theorem exists_about?_shown (h : ∃ n ∈ more, (about? path n).isSome = true) :
    ∃ n ∈ more, about? path n = some (shown (notices ++ more) path) := by
  have hne : more.filterMap (about? path) ≠ [] := by
    obtain ⟨n, hn, hsome⟩ := h
    obtain ⟨items, hitems⟩ := Option.isSome_iff_exists.mp hsome
    exact List.ne_nil_of_mem (List.mem_filterMap.mpr ⟨n, hn, hitems⟩)
  have hshown : shown (notices ++ more) path = (more.filterMap (about? path)).getLast hne := by
    rw [shown, List.filterMap_append, List.getLast?_append_of_ne_nil _ hne,
      List.getLast?_eq_some_getLast hne]
    rfl
  rw [hshown]
  exact List.mem_filterMap.mp (List.getLast_mem hne)

/-! ### Telling -/

theorem diagnosticsFor_congr (h : path.same other = true) :
    diagnosticsFor warnings path = diagnosticsFor warnings other := by
  have hsame : ∀ w : Warning, w.path.same path = w.path.same other := by
    intro w
    rw [Path.same, Path.same, Path.same_iff.mp h]
  simp only [diagnosticsFor, hsame]

theorem isAbsolute_of_same (h : path.same other = true) (ho : other.isAbsolute = true) :
    path.isAbsolute = true := by
  rw [Path.isAbsolute_iff_parts, Path.same_iff.mp h]
  exact Path.isAbsolute_iff_parts.mp ho

/-- The files that are told about are those with warnings. -/
theorem exists_mem_warnedFiles (h : path.isAbsolute = true) :
    (∃ w ∈ warnedFiles warnings, w.same path = true) ↔ diagnosticsFor warnings path ≠ [] := by
  have hfor : diagnosticsFor warnings path ≠ [] ↔ ∃ w ∈ warnings, w.path.same path = true := by
    simp [diagnosticsFor, List.filter_eq_nil_iff]
  rw [hfor]
  constructor
  · rintro ⟨p, hp, hsame⟩
    have hmem := List.mem_of_mem_filter (Listing.mem_of_mem_distinctFrom hp)
    obtain ⟨w, hw, rfl⟩ := List.mem_map.mp hmem
    exact ⟨w, hw, hsame⟩
  · rintro ⟨w, hw, hsame⟩
    have htext : w.path.text ≠ "" := by
      intro hempty
      have habsolute := isAbsolute_of_same hsame h
      rw [Path.isAbsolute, hempty] at habsolute
      cases habsolute
    have hmem : w.path ∈ (warnings.map (·.path)).filter (·.text ≠ "") :=
      List.mem_filter.mpr ⟨List.mem_map_of_mem hw, by simpa using htext⟩
    obtain ⟨b, hb, hbw⟩ := Listing.exists_mem_distinct Path.same_refl hmem
    exact ⟨b, hb, by rw [Path.same_iff, Path.same_iff.mp hbw, Path.same_iff.mp hsame]⟩

/-- What a notice of a telling says. -/
theorem mem_publish (h : n ∈ (publish published warnings).2) :
    (∃ p ∈ published, (∀ w ∈ warnedFiles warnings, ¬ w.same p = true) ∧ n = .diagnostics p []) ∨
      ∃ p ∈ warnedFiles warnings, p.isAbsolute = true ∧
        n = .diagnostics p (diagnosticsFor warnings p) := by
  rcases List.mem_append.mp h with h | h
  · obtain ⟨p, hp, rfl⟩ := List.mem_map.mp h
    obtain ⟨hp, hcleared⟩ := List.mem_filter.mp hp
    exact .inl ⟨p, hp, by simpa using hcleared, rfl⟩
  · obtain ⟨p, hp, rfl⟩ := List.mem_map.mp h
    obtain ⟨hp, habsolute⟩ := List.mem_filter.mp hp
    exact .inr ⟨p, hp, habsolute, rfl⟩

/-- Whatever is told of an absolute path are its warnings. -/
theorem items_of_publish (habsolute : path.isAbsolute = true)
    (h : n ∈ (publish published warnings).2) (hn : about? path n = some items) :
    items = diagnosticsFor warnings path := by
  obtain ⟨other, rfl, hsame⟩ := about?_eq_some.mp hn
  rcases mem_publish h with ⟨p, -, hcleared, heq⟩ | ⟨p, -, -, heq⟩
  · obtain ⟨rfl, rfl⟩ := Notice.diagnostics.inj heq
    by_contra hne
    obtain ⟨w, hw, hwpath⟩ := (exists_mem_warnedFiles habsolute).mpr (Ne.symm hne)
    apply hcleared w hw
    rw [Path.same_iff, Path.same_iff.mp hwpath, Path.same_iff.mp hsame]
  · obtain ⟨rfl, rfl⟩ := Notice.diagnostics.inj heq
    exact diagnosticsFor_congr hsame

/-- A file that has warnings is told about. -/
theorem told_of_warned (habsolute : path.isAbsolute = true)
    (h : diagnosticsFor warnings path ≠ []) :
    ∃ n ∈ (publish published warnings).2, (about? path n).isSome = true := by
  obtain ⟨w, hw, hsame⟩ := (exists_mem_warnedFiles habsolute).mpr h
  refine ⟨.diagnostics w (diagnosticsFor warnings w), ?_, ?_⟩
  · refine List.mem_append_right _ (List.mem_map.mpr ⟨w, List.mem_filter.mpr ⟨hw, ?_⟩, rfl⟩)
    exact isAbsolute_of_same hsame habsolute
  · rw [about?, if_pos hsame]
    rfl

/-- A file that had diagnostics is told about, or still counts as having
some. -/
theorem told_or_kept (h : ∃ p ∈ published, p.same path = true) :
    (∃ n ∈ (publish published warnings).2, (about? path n).isSome = true) ∨
      (∃ w ∈ warnedFiles warnings, w.same path = true) ∧
        ∃ q ∈ (publish published warnings).1, q.same path = true := by
  obtain ⟨p, hp, hsame⟩ := h
  by_cases hwarned : (warnedFiles warnings).any (·.same p) = true
  · right
    constructor
    · obtain ⟨w, hw, hwp⟩ := List.any_eq_true.mp hwarned
      exact ⟨w, hw, by rw [Path.same_iff, Path.same_iff.mp hwp, Path.same_iff.mp hsame]⟩
    · have hmem : p ∈ published.filter (fun path => (warnedFiles warnings).any (·.same path)) :=
        List.mem_filter.mpr ⟨hp, hwarned⟩
      obtain ⟨q, hq, hqp⟩ := Listing.exists_mem_distinct Path.same_refl
        (List.mem_append_left ((warnedFiles warnings).filter Path.isAbsolute) hmem)
      exact ⟨q, hq, by rw [Path.same_iff, Path.same_iff.mp hqp, Path.same_iff.mp hsame]⟩
  · left
    refine ⟨.diagnostics p [], List.mem_append_left _ (List.mem_map.mpr ⟨p, ?_, rfl⟩), ?_⟩
    · exact List.mem_filter.mpr ⟨hp, by simpa using hwarned⟩
    · rw [about?, if_pos hsame]
      rfl

/-- A file that is told to have diagnostics counts as having some. -/
theorem kept_of_items (h : n ∈ (publish published warnings).2) (hn : about? path n = some items)
    (hitems : items ≠ []) : ∃ q ∈ (publish published warnings).1, q.same path = true := by
  obtain ⟨other, rfl, hsame⟩ := about?_eq_some.mp hn
  rcases mem_publish h with ⟨p, -, -, heq⟩ | ⟨p, hp, habsolute, heq⟩
  · exact absurd (Notice.diagnostics.inj heq).2 hitems
  · obtain ⟨rfl, -⟩ := Notice.diagnostics.inj heq
    have hmem : other ∈ (warnedFiles warnings).filter Path.isAbsolute :=
      List.mem_filter.mpr ⟨hp, habsolute⟩
    obtain ⟨q, hq, hqp⟩ := Listing.exists_mem_distinct Path.same_refl
      (List.mem_append_right
        (published.filter fun path => (warnedFiles warnings).any (·.same path)) hmem)
    exact ⟨q, hq, by rw [Path.same_iff, Path.same_iff.mp hqp, Path.same_iff.mp hsame]⟩

/-- Telling the warnings brings what is shown up to date, in whatever order
they are told, if it is known which files something is shown of. -/
theorem shown_publish (habsolute : path.isAbsolute = true)
    (hmore : ∀ n, n ∈ more ↔ n ∈ (publish published warnings).2)
    (hknown : shown notices path ≠ [] → ∃ p ∈ published, p.same path = true) :
    shown (notices ++ more) path = diagnosticsFor warnings path := by
  by_cases htold : ∃ n ∈ more, (about? path n).isSome = true
  · obtain ⟨n, hn, hshown⟩ := exists_about?_shown htold
    exact items_of_publish habsolute ((hmore n).mp hn) hshown
  · have hnone : ∀ n ∈ more, about? path n = none := by
      intro n hn
      rw [← Option.not_isSome_iff_eq_none]
      exact fun hsome => htold ⟨n, hn, hsome⟩
    have hquiet : ¬ ∃ n ∈ (publish published warnings).2, (about? path n).isSome = true := by
      rintro ⟨n, hn, hsome⟩
      exact htold ⟨n, (hmore n).mpr hn, hsome⟩
    have hfree : diagnosticsFor warnings path = [] := by
      by_contra hne
      exact hquiet (told_of_warned habsolute hne)
    rw [shown_append_of_none hnone, hfree]
    by_contra hne
    rcases told_or_kept (hknown hne) with hsome | ⟨hwarned, -⟩
    · exact hquiet hsome
    · exact (exists_mem_warnedFiles habsolute).mp hwarned hfree

/-! ### What runs leave behind -/

/-- Some project counts a file among those with diagnostics. -/
def Listed (s : State) (path : Path) : Prop :=
  ∃ p ∈ s.projects, ∃ q ∈ p.published, q.same path = true

/-- The files that something is shown of are known. -/
def Accounted (turns : List Turn) (s : State) : Prop :=
  ∀ path, shown (told turns) path ≠ [] → Listed s path

variable {turns : List Turn} {s s' : State} {e : Event} {t : Turn} {p q : Project}

/-- A project that is replaced by one that lists the same files. -/
theorem Listed.replace {before after : List Project} (hr : RoutedTo s other before p after)
    (hq : q.published = p.published) (h : Listed s path) :
    Listed ⟨before ++ q :: after⟩ path := by
  rw [Listed, hr.projects] at h
  exact (exists_mem_replace (by rw [hq])).mpr h

/-- What a turn must see to: that it lists the files that it gives
diagnostics, and goes on listing those it does not tell about. -/
theorem Accounted.concat (h : Accounted turns s)
    (hnew : ∀ n ∈ t.notices, ∀ path items, about? path n = some items → items ≠ [] →
      Listed s' path)
    (hold : ∀ path, (∀ n ∈ t.notices, about? path n = none) → Listed s path → Listed s' path) :
    Accounted (turns ++ [t]) s' := by
  intro path hshown
  rw [told_append, told_singleton] at hshown
  by_cases htold : ∃ n ∈ t.notices, (about? path n).isSome = true
  · obtain ⟨n, hn, hitems⟩ := exists_about?_shown htold
    exact hnew n hn path _ hitems hshown
  · have hnone : ∀ n ∈ t.notices, about? path n = none := by
      intro n hn
      rw [← Option.not_isSome_iff_eq_none]
      exact fun hsome => htold ⟨n, hn, hsome⟩
    rw [shown_append_of_none hnone] at hshown
    exact hold path hnone (h path hshown)

/-- What becomes of the files that a project lists. -/
theorem Worked.listed (h : Worked e p q notices) :
    (∀ n ∈ notices, ∀ path items, about? path n = some items → items ≠ [] →
      ∃ x ∈ q.published, x.same path = true) ∧
    ∀ path, (∀ n ∈ notices, about? path n = none) → (∃ x ∈ p.published, x.same path = true) →
      ∃ x ∈ q.published, x.same path = true := by
  cases h with
  | quiet _ published => exact ⟨nofun, fun path _ => by rw [published]; exact id⟩
  | answered _ _ published => exact ⟨nofun, fun path _ => by rw [published]; exact id⟩
  | @told q _ published =>
      refine ⟨fun n hn path items => kept_of_items hn, fun path hnone hlisted => ?_⟩
      rw [← published] at hlisted
      rcases told_or_kept hlisted with ⟨n, hn, hsome⟩ | ⟨-, hkept⟩
      · rw [hnone n hn] at hsome
        cases hsome
      · exact hkept

/-- Every event keeps account of the files that have diagnostics. -/
theorem Accounted.step (h : Accounted turns s) (ha : Applied s e s' notices) :
    Accounted (turns ++ [⟨e, s', notices⟩]) s' := by
  cases ha with
  | edited event routed =>
      exact h.concat nofun fun path _ hlisted => hlisted.replace routed rfl
  | started event uncovered buffers published built message =>
      obtain ⟨text, rfl⟩ := message
      refine h.concat ?_ ?_
      · intro n hn path items hitems
        rw [List.mem_singleton.mp hn] at hitems
        cases hitems
      · rintro path - ⟨p, hp, hlisted⟩
        exact ⟨p, List.mem_append_left _ hp, hlisted⟩
  | failed => exact h.concat nofun fun path _ => id
  | missed => exact h.concat nofun fun path _ => id
  | closed event routed =>
      refine h.concat ?_ ?_
      · -- a project that is dropped only takes diagnostics away
        intro n hn path items hitems hne
        obtain ⟨p, -, hn⟩ := List.mem_flatMap.mp hn
        obtain ⟨x, -, rfl⟩ := List.mem_map.mp hn
        obtain ⟨other, heq, -⟩ := about?_eq_some.mp hitems
        exact absurd (Notice.diagnostics.inj heq).2.symm hne
      · intro path hnone hlisted
        obtain ⟨p, hp, x, hx, hsame⟩ := hlisted.replace (q := erased _ _) routed rfl
        refine ⟨p, List.mem_filter.mpr ⟨hp, ?_⟩, x, hx, hsame⟩
        by_contra hidle
        have htold : Notice.diagnostics x [] ∈ (State.dropIdle ⟨_⟩).2 :=
          List.mem_flatMap.mpr ⟨p, List.mem_filter.mpr ⟨hp, by simpa using hidle⟩,
            List.mem_map_of_mem hx⟩
        have hsome := hnone _ htold
        rw [about?, if_pos hsame] at hsome
        cases hsome
  | worked event work telling =>
      obtain ⟨hforth, hback⟩ := exists_worked work
      refine h.concat ?_ ?_
      · intro n hn path items hitems hne
        obtain ⟨r, hr, hn⟩ := (telling n).mp hn
        obtain ⟨p, -, hwork⟩ := hback r hr
        exact ⟨r.1, List.mem_map_of_mem hr, hwork.listed.1 n hn path items hitems hne⟩
      · rintro path hnone ⟨p, hp, hlisted⟩
        obtain ⟨r, hr, hwork⟩ := hforth p hp
        refine ⟨r.1, List.mem_map_of_mem hr, hwork.listed.2 path ?_ hlisted⟩
        exact fun n hn => hnone n ((telling n).mpr ⟨r, hr, hn⟩)

theorem accounted_of_run (h : Run turns s) : Accounted turns s := by
  induction h with
  | start => simp [Accounted, shown, told]
  | step host now _ _ ih => exact ih.step (applied_apply host now _ _)

/-- **What is left when all is closed.**  A server has no project exactly if
the editor has closed all it opened, and no file was closed while another
project had it open; then nothing is shown of any file.  No file is closed so
while no project covers what a later one has open. -/
theorem closed_server_leaves_nothing (h : Run turns s) :
    (s.projects = [] ↔ texts turns = [] ∧ strays turns = []) ∧
    (s.projects = [] → ∀ path, shown (told turns) path = []) ∧
    ((∀ t ∈ turns, Owned t.state) → strays turns = []) := by
  refine ⟨(kept_of_run h).projects_eq_nil_iff, ?_, strays_eq_nil h⟩
  intro hnil path
  by_contra hne
  obtain ⟨p, hp, -⟩ := accounted_of_run h path hne
  rw [hnil] at hp
  cases hp

/-- A document with a label that is defined twice. -/
def draftRepeated : Buffer :=
  ⟨"\\documentclass{a}\\label{x}\\label{x}", 1⟩

/-- The server after the document was opened. -/
def repeatedOpened : State × List Notice :=
  (Event.opened ⟨"/b.tex"⟩ draftRepeated).apply draftHost 0 .empty

/-- The server after it was indexed, too. -/
def repeatedIndexed : State × List Notice :=
  (Event.reindex none).apply draftHost 300 repeatedOpened.1

theorem run_repeatedIndexed :
    Run [⟨.opened ⟨"/b.tex"⟩ draftRepeated, repeatedOpened.1, repeatedOpened.2⟩,
      ⟨.reindex none, repeatedIndexed.1, repeatedIndexed.2⟩] repeatedIndexed.1 :=
  .step draftHost 300 (.step draftHost 0 .start (by decide)) trivial

theorem closed_server_leaves_nothing_warned : ∃ turns s, Run turns s ∧
    (∃ n ∈ told turns, ∃ d, about? ⟨"/b.tex"⟩ n = some [d]) ∧ texts turns = [] ∧
    s.projects = [] ∧ ∀ path, shown (told turns) path = [] := by
  have hrun := Run.step (e := .closed ⟨"/b.tex"⟩) draftHost 300 run_repeatedIndexed (by decide)
  have hclosed := (closed_server_leaves_nothing hrun).1.mpr ⟨rfl, rfl⟩
  exact ⟨_, _, hrun, ⟨_, .tail _ (.head _), _, rfl⟩, rfl, hclosed,
    (closed_server_leaves_nothing hrun).2.1 hclosed⟩

theorem closed_file_left_behind : ∃ turns s, Run turns s ∧ texts turns = [] ∧
    s.projects.length = 1 ∧ (shown (told turns) ⟨"/b.tex"⟩).length = 1 := by
  have hmaster := Run.step (e := .opened ⟨"/a.tex"⟩ draftMaster) draftHost 0 .start (by decide)
  have hpart := Run.step (e := .opened ⟨"/b.tex"⟩ draftRepeated) draftHost 0 hmaster (by decide)
  have hindexed := Run.step (e := .reindex none) draftHost 300 hpart trivial
  -- the master covers the part now, so the part's own project is not told
  have hclosed := Run.step (e := .closed ⟨"/b.tex"⟩) draftHost 300 hindexed (by decide)
  have hrun := Run.step (e := .closed ⟨"/a.tex"⟩) draftHost 300 hclosed (by decide)
  exact ⟨_, _, hrun, rfl, rfl, rfl⟩

/-! ### One project -/

/-- What is shown of every absolute path are the warnings of a snapshot. -/
def Shows (notices : List Notice) (snapshot : Snapshot) : Prop :=
  ∀ path, path.isAbsolute = true → shown notices path = diagnosticsFor snapshot.warnings path

/-- No diagnostics were told. -/
def Silent (notices : List Notice) : Prop :=
  ∀ n ∈ notices, ∀ path, about? path n = none

/-- No project was built after any of the turns. -/
def Unbuilt (turns : List Turn) : Prop :=
  ∀ t ∈ turns, ∀ p ∈ t.state.projects, p.session.built = false

/-- The first time that a project was built, it was by a question. -/
def BuiltByQuery (turns : List Turn) : Prop :=
  ∃ earlier t later, turns = earlier ++ t :: later ∧ Unbuilt earlier ∧
    t.event.isQuery = true ∧ ∃ p ∈ t.state.projects, p.session.built = true

theorem BuiltByQuery.concat (h : BuiltByQuery turns) (t : Turn) : BuiltByQuery (turns ++ [t]) := by
  obtain ⟨earlier, query, later, rfl, hquery⟩ := h
  exact ⟨earlier, query, later ++ [t], by simp, hquery⟩

theorem Unbuilt.concat (h : Unbuilt turns) (ht : ∀ p ∈ t.state.projects, p.session.built = false) :
    Unbuilt (turns ++ [t]) := by
  intro u hu
  rcases List.mem_append.mp hu with hu | hu
  · exact h u hu
  · rw [List.mem_singleton.mp hu]
    exact ht

theorem Silent.append (h : Silent notices) (hmore : Silent more) : Silent (notices ++ more) := by
  intro n hn
  rcases List.mem_append.mp hn with hn | hn
  · exact h n hn
  · exact hmore n hn

theorem Silent.shown_eq (h : Silent notices) (path : Path) : shown notices path = [] := by
  have hnil : notices.filterMap (about? path) = [] :=
    List.filterMap_eq_nil_iff.mpr fun n hn => h n hn path
  rw [shown, hnil]
  rfl

/-- What is known about the diagnostics of the only project. -/
inductive Followed (turns : List Turn) (p : Project) : Prop
  /-- None were told, as no snapshot or only one that a query built was
  installed. -/
  | silent (silent : Silent (told turns)) (published : p.published = [])
      (query : p.session.built = true → BuiltByQuery turns)
      (unbuilt : p.session.built = false → Unbuilt turns)
  /-- They were told, and are those of the snapshot. -/
  | shows (built : p.session.built = true) (shows : Shows (told turns) p.session.snapshot)

/-- A turn that tells nothing and installs nothing. -/
theorem Followed.quiet (h : Followed turns p) (ht : t.state.projects = [q])
    (hsilent : Silent t.notices) (hpublished : q.published = p.published)
    (hsnapshot : q.session.snapshot = p.session.snapshot)
    (hbuilt : q.session.built = p.session.built) : Followed (turns ++ [t]) q := by
  cases h with
  | silent silent published query unbuilt =>
      refine .silent ?_ (hpublished.trans published) ?_ ?_
      · rw [told_append, told_singleton]
        exact silent.append hsilent
      · intro hq
        exact (query (hbuilt.symm.trans hq)).concat t
      · intro hq
        refine (unbuilt (hbuilt.symm.trans hq)).concat fun p hp => ?_
        rw [ht, List.mem_singleton] at hp
        rw [hp, hq]
  | shows built shows =>
      refine .shows (hbuilt.trans built) fun path habsolute => ?_
      rw [told_append, told_singleton, shown_append_of_none fun n hn => hsilent n hn path, hsnapshot]
      exact shows path habsolute

/-- Work on the only project. -/
theorem Followed.worked (h : Followed turns p)
    (haccounted : ∀ path, shown (told turns) path ≠ [] → ∃ x ∈ p.published, x.same path = true)
    (hw : Worked t.event p q notices) (hnotices : ∀ n, n ∈ t.notices ↔ n ∈ notices)
    (ht : t.state.projects = [q]) : Followed (turns ++ [t]) q := by
  have hsilent : notices = [] → Silent t.notices := by
    intro hnil n hn
    rw [hnotices, hnil] at hn
    cases hn
  cases hw with
  | quiet _ published snapshot built =>
      exact h.quiet ht (hsilent rfl) published snapshot built
  | answered query _ published unbuilt =>
      cases h with
      | shows built _ =>
          rw [unbuilt] at built
          cases built
      | silent silent published' _ hunbuilt =>
          refine .silent ?_ (published.trans published') ?_ ?_
          · rw [told_append, told_singleton]
            exact silent.append (hsilent rfl)
          · exact fun hq => ⟨turns, t, [], rfl, hunbuilt unbuilt, query, q, by simp [ht], hq⟩
          · intro hq
            refine (hunbuilt unbuilt).concat fun p hp => ?_
            rw [ht, List.mem_singleton] at hp
            rw [hp, hq]
  | @told q _ published built =>
      refine .shows built fun path habsolute => ?_
      rw [told_append, told_singleton]
      refine shown_publish habsolute hnotices fun hne => ?_
      rw [published]
      exact haccounted path hne

/-- As long as nothing is closed, the only project is followed from its
start. -/
theorem followed_of_run (h : Run turns s) (hclosed : ∀ t ∈ turns, ∀ path, t.event ≠ .closed path) :
    (s.projects = [] → Silent (told turns) ∧ Unbuilt turns) ∧
      ∀ p, s.projects = [p] → Followed turns p := by
  induction h with
  | start => exact ⟨fun _ => ⟨nofun, nofun⟩, nofun⟩
  | @step turns s e host now hrun _ ih =>
      obtain ⟨hnone, hone⟩ := ih fun t ht => hclosed t (List.mem_append_left _ ht)
      have hopen : ∀ path, e ≠ .closed path :=
        hclosed _ (List.mem_append_right _ List.mem_cons_self)
      have ha := applied_apply host now s e
      generalize e.apply host now s = r at ha ⊢
      obtain ⟨s', notices⟩ := r
      -- nothing happened
      have hsame : s' = s → notices = [] →
          (s'.projects = [] → Silent (told (turns ++ [⟨e, s', notices⟩])) ∧
            Unbuilt (turns ++ [⟨e, s', notices⟩])) ∧
          ∀ p, s'.projects = [p] → Followed (turns ++ [⟨e, s', notices⟩]) p := by
        rintro rfl rfl
        refine ⟨fun hnil => ?_, fun p hp => ?_⟩
        · refine ⟨?_, (hnone hnil).2.concat fun p hp => ?_⟩
          · rw [told_append, told_singleton]
            exact (hnone hnil).1.append nofun
          · rw [hnil] at hp
            cases hp
        · exact (hone p hp).quiet hp nofun rfl rfl rfl
      cases ha with
      | edited event routed =>
          refine ⟨fun hnil => absurd hnil (by simp), fun q hq => ?_⟩
          obtain ⟨rfl, rfl, rfl⟩ : _ = [] ∧ _ = q ∧ _ = [] := by
            simpa [List.append_eq_singleton_iff] using hq
          exact (hone _ routed.projects).quiet hq nofun rfl rfl rfl
      | started event uncovered buffers published built message =>
          obtain ⟨text, rfl⟩ := message
          refine ⟨fun hnil => absurd hnil (by simp), fun q hq => ?_⟩
          obtain ⟨hnil, rfl⟩ : s.projects = [] ∧ _ = q := by
            simpa [List.append_eq_singleton_iff] using hq
          have hlog : Silent [.log text] := by
            intro n hn path
            rw [List.mem_singleton.mp hn]
            rfl
          refine .silent ?_ published ?_ ?_
          · rw [told_append, told_singleton]
            exact (hnone hnil).1.append hlog
          · intro hbuilt
            rw [built] at hbuilt
            cases hbuilt
          · intro _
            refine (hnone hnil).2.concat fun p hp => ?_
            rw [hq, List.mem_singleton] at hp
            rw [hp, built]
      | failed => exact hsame rfl rfl
      | missed => exact hsame rfl rfl
      | closed event => exact absurd event (hopen _)
      | @worked results notices event work telling =>
          refine ⟨fun hnil => ?_, fun q hq => ?_⟩
          · rw [List.map_eq_nil_iff] at hnil
            subst hnil
            have hprojects := List.forall₂_nil_right_iff.mp work
            refine ⟨?_, (hnone hprojects).2.concat nofun⟩
            rw [told_append, told_singleton]
            refine (hnone hprojects).1.append fun n hn => ?_
            obtain ⟨r, hr, -⟩ := (telling n).mp hn
            cases hr
          · obtain ⟨r, rfl, rfl⟩ := List.map_eq_singleton_iff.mp hq
            obtain ⟨p, l, hpr, hl, hprojects⟩ := List.forall₂_cons_right_iff.mp work
            rw [List.forall₂_nil_right_iff.mp hl] at hprojects
            refine (hone p hprojects).worked ?_ hpr (by simpa using telling) rfl
            intro path hne
            obtain ⟨p', hp', hlisted⟩ := accounted_of_run hrun path hne
            rw [hprojects, List.mem_singleton] at hp'
            rw [← hp']
            exact hlisted

/-- **Diagnostics and the index**, for a server with one project: once a
project is built, what is shown of all absolute paths are the warnings of its
snapshot exactly if diagnostics were ever told, or there are none to tell.
They are always shown so if it was not a question that had the project built
first. -/
theorem diagnostics_follow_snapshot (h : Run turns s)
    (hclosed : ∀ t ∈ turns, ∀ path, t.event ≠ .closed path) (hp : s.projects = [p])
    (hbuilt : p.session.built = true) :
    (Shows (told turns) p.session.snapshot ↔
      (∃ n ∈ told turns, ∃ path items, n = .diagnostics path items) ∨
        ∀ path, path.isAbsolute = true → diagnosticsFor p.session.snapshot.warnings path = []) ∧
    (¬ BuiltByQuery turns → Shows (told turns) p.session.snapshot) := by
  cases (followed_of_run h hclosed).2 p hp with
  | silent silent _ query _ =>
      refine ⟨?_, fun hnot => absurd (query hbuilt) hnot⟩
      constructor
      · intro shows
        right
        intro path habsolute
        rw [← shows path habsolute, silent.shown_eq]
      · rintro (⟨n, hn, path, items, rfl⟩ | hnone) path' habsolute
        · have hsome := silent _ hn path
          rw [about?, if_pos (Path.same_refl path)] at hsome
          cases hsome
        · rw [silent.shown_eq, hnone path' habsolute]
  | shows _ shows =>
      refine ⟨iff_of_true shows ?_, fun _ => shows⟩
      by_contra hnot
      rw [not_or] at hnot
      apply hnot.2
      intro path habsolute
      have hsilent : Silent (told turns) := by
        intro n hn path
        rcases hn' : about? path n with - | items
        · rfl
        · obtain ⟨other, heq, -⟩ := about?_eq_some.mp hn'
          exact absurd ⟨n, hn, other, items, heq⟩ hnot.1
      rw [← shows path habsolute, hsilent.shown_eq]

theorem diagnostics_follow_snapshot_repeated : ∃ turns s p, Run turns s ∧
    (∀ t ∈ turns, ∀ path, t.event ≠ .closed path) ∧ s.projects = [p] ∧
    p.session.built = true ∧
    (diagnosticsFor p.session.snapshot.warnings ⟨"/b.tex"⟩).length = 1 ∧
    Shows (told turns) p.session.snapshot := by
  have hrun := Run.step (e := .changed ⟨"/b.tex"⟩ draftPart) draftHost 300 run_repeatedIndexed
    (by decide)
  refine ⟨_, _, _, hrun, by simp, rfl, rfl, rfl,
    (diagnostics_follow_snapshot hrun (by simp) rfl rfl).2 ?_⟩
  rintro ⟨earlier, t, later, hturns, -, hquery, -⟩
  have ht : t ∈ earlier ++ t :: later := by simp
  rw [← hturns] at ht
  simp only [List.nil_append, List.cons_append, List.mem_cons, List.not_mem_nil, or_false] at ht
  rcases ht with rfl | rfl | rfl <;> cases hquery

/-- A document with a label that is defined twice and a reference that is
being typed. -/
def draftTyped : Buffer :=
  ⟨"\\documentclass{a}\\label{x}\\label{x}\n\\ref\x7b", 1⟩

/-- The server after the document was opened and a completion was asked for. -/
def draftAsked : State :=
  ((Event.completions ⟨"/b.tex"⟩ 1 5).apply draftHost 0
    ((Event.opened ⟨"/b.tex"⟩ draftTyped).apply draftHost 0 .empty).1).1

theorem diagnostics_not_told : ∃ turns s, Run turns s ∧
    (∀ t ∈ turns, ∀ path, t.event ≠ .closed path) ∧
    s.projects.map (fun p => (p.scheduler.pending, p.session.built,
      (diagnosticsFor p.session.snapshot.warnings ⟨"/b.tex"⟩).length)) = [(none, true, 2)] ∧
    shown (told turns) ⟨"/b.tex"⟩ = [] := by
  have hopened := Run.step (e := .opened ⟨"/b.tex"⟩ draftTyped) draftHost 0 .start (by decide)
  have hasked := Run.step (e := .completions ⟨"/b.tex"⟩ 1 5) draftHost 0 hopened trivial
  have hrun := Run.step (e := .waited) draftHost 300 hasked trivial
  have hquiet : (draftAsked.fireDue draftHost 300).2 = [] := by
    have hnone : (draftAsked.projects.map (·.fireDue draftHost.disk 300)).filterMap (·.2) = [] :=
      rfl
    simp [State.fireDue, hnone]
  refine ⟨_, _, hrun, by simp, rfl, ?_⟩
  rw [told_append, told_singleton]
  show shown (_ ++ (draftAsked.fireDue draftHost 300).2) _ = []
  rw [hquiet, List.append_nil]
  rfl

end Serving

end LatexIndex
