/-
LatexIndex/Proofs/Shadowing.lean

What the include graph and the search for a master make of one inclusion.

The graph resolves an inclusion from the master's directory first and from the
document's own after that.  The search for a master does not know the master
yet: it resolves the inclusion from the document's own directory, then from
the one above, and so on up to the search root.  Both begin and end with the
same directories in opposite order, so they differ where a file of the same
name lies nearer to the document than the master's directory: there the name
is *shadowed*.

Main result: with the master's directory as the search root, the search
recognises the source of an edge as an includer of its target exactly if some
inclusion that leads there is not shadowed, or another one is shadowed by that
very target (`edge_recognised_iff`).  A shadowed edge is not recognised
(`shadowed_edge_not_recognised`).
-/
import LatexIndex.Project.Master
import LatexIndex.Proofs.Ancestors
import LatexIndex.Proofs.Discovery
import LatexIndex.Proofs.PlainPaths

namespace LatexIndex

open Markup

namespace Sources

variable {sources : Sources} {name : String} {source root target : Path} {as bs : List Path}

/-! ### Names from directories -/

/-- From `bases`, the name of a document means `target`. -/
def Means (sources : Sources) (name : String) (bases : List Path) (target : Path) : Prop :=
  ∃ file, sources.resolve? name bases ".tex" = some file ∧ file.same target = true

/-- The directories that the search for a master sees an inclusion from before
it comes to `root`. -/
def nearerBases (source root : Path) : List Path :=
  (climbBases source root).filter (!·.same root)

/-- From a directory nearer to `source` than `root`, the name means another
file than `target`. -/
def Shadowed (sources : Sources) (name : String) (source root target : Path) : Prop :=
  ∃ other, sources.resolve? name (nearerBases source root) ".tex" = some other ∧
    other.same target = false

theorem Means.append_left (h : sources.Means name as target) :
    sources.Means name (as ++ bs) target := by
  obtain ⟨file, hfile, hsame⟩ := h
  refine ⟨file, ?_, hsame⟩
  rw [resolve?_append, hfile, Option.some_or]

theorem means_append_of_none (h : sources.resolve? name as ".tex" = none) :
    sources.Means name (as ++ bs) target ↔ sources.Means name bs target := by
  simp only [Means, resolve?_append, h, Option.none_or]

/-- The search comes to `root` last. -/
theorem climbBases_eq (hroot : root.parts ≠ []) (h : source.directory.startsWith root = true) :
    ∃ last, climbBases source root = nearerBases source root ++ [last] ∧
      last.parts = root.parts := by
  obtain ⟨nearer, last, hbases, hlast, hnearer⟩ := Path.takeWhile_ancestors hroot h
  have hfilter : nearerBases source root = nearer := by
    rw [nearerBases, climbBases, hbases, List.filter_append,
      List.filter_eq_self.mpr (by simpa [Path.same_iff, ← Bool.not_eq_true] using hnearer)]
    simp [Path.same_iff, hlast]
  exact ⟨last, by rw [hfilter]; exact hbases, hlast⟩

theorem resolve?_climbBases (hroot : root.parts ≠ [])
    (h : source.directory.startsWith root = true) :
    sources.resolve? name (climbBases source root) ".tex" =
      sources.resolve? name (nearerBases source root ++ [root]) ".tex" := by
  obtain ⟨last, hbases, hlast⟩ := climbBases_eq hroot h
  rw [hbases, resolve?_append, resolve?_append,
    resolve?_congr_bases sources (.cons hlast .nil)]

theorem head?_climbBases (h : source.directory.startsWith root = true) :
    (climbBases source root).head? = some source.directory := by
  obtain ⟨above, habove⟩ := List.head?_eq_some_iff.mp (Path.head?_ancestors source.directory)
  rw [climbBases, habove, List.takeWhile_cons, if_pos h, List.head?_cons]

/-- The document's own directory is the nearest, unless it is `root`. -/
theorem exists_nearerBases (h : source.directory.startsWith root = true)
    (hne : source.directory.parts ≠ root.parts) :
    ∃ further, nearerBases source root = source.directory :: further := by
  obtain ⟨further, hbases⟩ := List.head?_eq_some_iff.mp (head?_climbBases h)
  rw [nearerBases, hbases]
  refine ⟨_, List.filter_cons_of_pos ?_⟩
  simpa [← Bool.not_eq_true, Path.same_iff] using hne

/-- Nothing is nearer to a document in `root` itself. -/
theorem nearerBases_eq_nil (hroot : root.parts ≠ [])
    (hsame : source.directory.parts = root.parts) : nearerBases source root = [] := by
  have hroots : root.parts <+: source.directory.parts := ⟨[], by rw [List.append_nil, hsame]⟩
  have h : source.directory.startsWith root = true := Path.startsWith_iff.mpr hroots
  obtain ⟨last, hbases, -⟩ := climbBases_eq hroot h
  have hhead := head?_climbBases h
  rcases hnear : nearerBases source root with - | ⟨a, further⟩
  · rfl
  · -- the nearest would be the document's own directory
    rw [hbases, hnear, List.cons_append, List.head?_cons, Option.some.injEq] at hhead
    have ha : a ∈ nearerBases source root := by simp [hnear]
    rw [nearerBases, List.mem_filter, hhead, Path.same_iff.mpr hsame] at ha
    cases ha.2

/-- **Where the two readings agree.**  An inclusion that leads to `target` from
`root` and the document's own directory leads there in the search exactly if
it is not shadowed. -/
theorem means_climbBases_iff (hroot : root.parts ≠ [])
    (h : source.directory.startsWith root = true)
    (hmeans : sources.Means name [root, source.directory] target) :
    sources.Means name (climbBases source root) target ↔
      ¬ sources.Shadowed name source root target := by
  rw [Means, resolve?_climbBases hroot h]
  rcases hnear : sources.resolve? name (nearerBases source root) ".tex" with - | other
  · -- nothing is nearer, so the name is seen from `root`
    have hclear : ¬ sources.Shadowed name source root target := by simp [Shadowed, hnear]
    refine iff_of_true ((means_append_of_none hnear).mpr ?_) hclear
    rcases hr : sources.resolve? name [root] ".tex" with - | file
    · -- not there either: the document's own directory would be the nearest
      have hown : sources.Means name [source.directory] target := by
        rw [← means_append_of_none hr]
        exact hmeans
      by_cases hsame : source.directory.parts = root.parts
      · rwa [Means, ← resolve?_congr_bases sources (.cons hsame .nil)]
      · obtain ⟨further, hfurther⟩ := exists_nearerBases h hsame
        obtain ⟨file, hfile, -⟩ := hown
        rw [hfurther, ← List.singleton_append, resolve?_append, hfile] at hnear
        cases hnear
    · obtain ⟨file', hfile', hsame⟩ := hmeans
      refine ⟨file', ?_, hsame⟩
      rw [← List.singleton_append, resolve?_append, hr, Option.some_or] at hfile'
      rw [hr, hfile']
  · simp [Shadowed, resolve?_append, hnear]

theorem includesPath_iff {d : Document} :
    sources.includesPath d target root = true ↔
      ∃ i ∈ d.scan.inclusions, sources.Means i.target (climbBases d.path root) target := by
  rw [includesPath, List.any_eq_true]
  constructor
  · rintro ⟨i, hi, htest⟩
    rcases hr : sources.resolve? i.target (climbBases d.path root) ".tex" with - | file
    · rw [hr] at htest
      cases htest
    · rw [hr] at htest
      exact ⟨i, hi, file, hr, htest⟩
  · rintro ⟨i, hi, file, hr, hsame⟩
    refine ⟨i, hi, ?_⟩
    rw [hr]
    exact hsame

/-- The search recognises a document as an includer of `target` if one of its
inclusions leads there and is not shadowed, or if one that leads elsewhere is
shadowed by `target`. -/
theorem includesPath_iff_shadowed (sources : Sources) (target : Path) (hroot : root.parts ≠ [])
    {d : Document} (h : d.path.directory.startsWith root = true) :
    sources.includesPath d target root = true ↔
      (∃ i ∈ d.scan.inclusions, sources.Means i.target [root, d.path.directory] target ∧
        ¬ sources.Shadowed i.target d.path root target) ∨
      (∃ i ∈ d.scan.inclusions, ¬ sources.Means i.target [root, d.path.directory] target ∧
        sources.Means i.target (nearerBases d.path root) target) := by
  rw [includesPath_iff]
  constructor
  · rintro ⟨i, hi, hclimb⟩
    by_cases hmeans : sources.Means i.target [root, d.path.directory] target
    · exact .inl ⟨i, hi, hmeans, (means_climbBases_iff hroot h hmeans).mp hclimb⟩
    · refine .inr ⟨i, hi, hmeans, ?_⟩
      rw [Means, resolve?_climbBases hroot h] at hclimb
      rcases hnear : sources.resolve? i.target (nearerBases d.path root) ".tex" with - | other
      · -- seen from `root` only, where the graph looks first
        have hfirst := (means_append_of_none hnear).mp hclimb
        have hgraph : sources.Means i.target ([root] ++ [d.path.directory]) target :=
          hfirst.append_left
        exact absurd hgraph hmeans
      · rw [resolve?_append, hnear, Option.some_or] at hclimb
        rwa [Means, hnear]
  · rintro (⟨i, hi, hmeans, hclear⟩ | ⟨i, hi, -, hnear⟩)
    · exact ⟨i, hi, (means_climbBases_iff hroot h hmeans).mpr hclear⟩
    · refine ⟨i, hi, ?_⟩
      rw [Means, resolve?_climbBases hroot h]
      exact hnear.append_left

end Sources

namespace Graph

variable {sources : Sources} {master : Path} {g g' : Graph} {d : Document} {i : Inclusion}
  {e : Edge}

/-! ### Edges come from inclusions -/

/-- Every edge was an inclusion of the document at its source, and the name in
it means its target. -/
def Traced (sources : Sources) (master : Path) (g : Graph) : Prop :=
  ∀ e ∈ g.edges, ∃ d ∈ g.documents, d.path = e.source ∧ e.inclusion ∈ d.scan.inclusions ∧
    sources.Means e.inclusion.target [master.directory, e.source.directory] e.target

theorem Traced.step (h : Traced sources master g) (hd : d ∈ g.documents)
    (hi : i ∈ d.scan.inclusions)
    (hf : Followed sources master.directory d.path g i g') : Traced sources master g' := by
  intro e he
  -- an edge is an old one, or the one that was just recorded
  have hcases : e ∈ g.edges ∨ e.source = d.path ∧ e.inclusion = i ∧
      sources.Means i.target [master.directory, d.path.directory] e.target := by
    cases hf with
    | missing | cycle | unreadable => exact .inl (by simpa [Record.edge?] using he)
    | joined hr hexisting =>
        have hsame := Path.same_iff.mpr (document?_eq_some hexisting).2.symm
        rw [edges_note, List.mem_append] at he
        refine he.imp id fun hnew => ?_
        obtain rfl := List.mem_singleton.mp hnew
        exact ⟨rfl, rfl, _, hr, hsame⟩
    | discovered hr =>
        rw [edges_note, edges_enter, List.mem_append] at he
        refine he.imp id fun hnew => ?_
        obtain rfl := List.mem_singleton.mp hnew
        exact ⟨rfl, rfl, _, hr, Path.same_refl _⟩
  have hgrow := hf.documents_grow.subset
  rcases hcases with hold | ⟨hsource, hinclusion, hmeans⟩
  · obtain ⟨b, hb, hrest⟩ := h e hold
    exact ⟨b, hgrow hb, hrest⟩
  · refine ⟨d, hgrow hd, hsource.symm, hinclusion ▸ hi, ?_⟩
    rwa [hsource, hinclusion]

theorem traced_of_graph (h : sources.graph master = .ok g) : Traced sources master g := by
  refine graph_induction h ?_ ?_
  · intro d _ e he
    cases he
  · intro g d i hg hd hi
    exact hg.step hd hi (followed_follow _ _ _ _ _)

/-! ### Which edges the search recognises -/

theorem directory_parts_ne_nil (h : master.isAbsolute = true) : master.directory.parts ≠ [] := by
  have hhead := Path.isAbsolute_iff_parts.mp h
  rw [Path.parts_directory, Path.directoryParts]
  split
  · simp
  · next hne =>
      obtain ⟨rest, hparts⟩ := List.head?_eq_some_iff.mp hhead
      have hrest : rest ≠ [] := by
        rintro rfl
        exact hne (.inr hparts)
      rw [hparts, List.dropLast_cons_of_ne_nil hrest]
      simp

/-- **The search for a master recognises every edge that is not shadowed.**
For an edge of the include graph of an absolute master, from a document in the
master's directory or below it, searching from that directory finds that the
source includes the target exactly if one of its inclusions leads there and is
not shadowed by a file nearer to the source, or one that leads elsewhere is
shadowed by the target itself; so it does if the edge's own inclusion is not
shadowed, and always for a source directly in the master's directory. -/
theorem edge_recognised_iff (hm : master.isAbsolute = true)
    (h : sources.graph master = .ok g) (he : e ∈ g.edges)
    (hbelow : e.source.directory.startsWith master.directory = true) :
    ∃ d ∈ g.documents, sources.load e.source = .ok d ∧ e.inclusion ∈ d.scan.inclusions ∧
      sources.Means e.inclusion.target [master.directory, e.source.directory] e.target ∧
      (sources.includesPath d e.target master.directory = true ↔
        (∃ i ∈ d.scan.inclusions,
          sources.Means i.target [master.directory, e.source.directory] e.target ∧
          ¬ sources.Shadowed i.target e.source master.directory e.target) ∨
        (∃ i ∈ d.scan.inclusions,
          ¬ sources.Means i.target [master.directory, e.source.directory] e.target ∧
          sources.Means i.target (Sources.nearerBases e.source master.directory) e.target)) ∧
      (¬ sources.Shadowed e.inclusion.target e.source master.directory e.target →
        sources.includesPath d e.target master.directory = true) ∧
      (e.source.directory.same master.directory = true →
        sources.includesPath d e.target master.directory = true) := by
  obtain ⟨d, hd, hsource, hinclusion, hmeans⟩ := traced_of_graph h e he
  have hload : sources.load d.path = .ok d := (sound_of_graph h).2.loaded d hd
  rw [← hsource] at hbelow hmeans ⊢
  have hroot := directory_parts_ne_nil hm
  have hiff := sources.includesPath_iff_shadowed e.target hroot hbelow
  have hclear : ¬ sources.Shadowed e.inclusion.target d.path master.directory e.target →
      sources.includesPath d e.target master.directory = true :=
    fun hnot => hiff.mpr (.inl ⟨e.inclusion, hinclusion, hmeans, hnot⟩)
  refine ⟨d, hd, hload, hinclusion, hmeans, hiff, hclear, fun hsame => hclear ?_⟩
  rintro ⟨other, hother, -⟩
  rw [Sources.nearerBases_eq_nil hroot (Path.same_iff.mp hsame)] at hother
  cases hother

/-- A master that includes a document in a directory below it, and that one a
document back in the master's directory. -/
def nestedSources : Sources :=
  ⟨⟨[], [], "/"⟩, [(⟨"/p/m.tex"⟩, ⟨"\\input{s/a}", 1⟩), (⟨"/p/s/a.tex"⟩, ⟨"\\input{b}", 1⟩),
    (⟨"/p/b.tex"⟩, ⟨"", 1⟩)]⟩

/-- The edge back into the master's directory. -/
def returningEdge : Edge :=
  ⟨⟨"/p/s/a.tex"⟩, ⟨"/p/b.tex"⟩, ⟨.inputFile, "b", 0⟩⟩

theorem nested_not_shadowed :
    ¬ nestedSources.Shadowed "b" ⟨"/p/s/a.tex"⟩ ⟨"/p"⟩ ⟨"/p/b.tex"⟩ := by
  have hnone : (nestedSources.resolve? "b" (Sources.nearerBases ⟨"/p/s/a.tex"⟩ ⟨"/p"⟩)
      ".tex").isNone = true := by decide +kernel
  rintro ⟨other, hother, -⟩
  rw [hother] at hnone
  cases hnone

theorem edge_recognised_iff_nested :
    ∃ g, nestedSources.graph ⟨"/p/m.tex"⟩ = .ok g ∧ returningEdge ∈ g.edges ∧
      ¬ nestedSources.Shadowed "b" ⟨"/p/s/a.tex"⟩ ⟨"/p"⟩ ⟨"/p/b.tex"⟩ ∧
      ∃ d ∈ g.documents, nestedSources.load ⟨"/p/s/a.tex"⟩ = .ok d ∧
        nestedSources.includesPath d ⟨"/p/b.tex"⟩ ⟨"/p"⟩ = true := by
  have hdirectory : (Path.mk "/p/m.tex").directory = ⟨"/p"⟩ := by decide +kernel
  have hgraph := Sources.graph_eq_of_load (rfl : nestedSources.load ⟨"/p/m.tex"⟩ = .ok _)
  refine ⟨_, hgraph, by decide +kernel, nested_not_shadowed, ?_⟩
  obtain ⟨d, hd, hload, -, -, -, hrecognised, -⟩ := edge_recognised_iff
    (e := returningEdge) (by decide +kernel) hgraph (by decide +kernel) (by decide +kernel)
  rw [hdirectory] at hrecognised
  exact ⟨d, hd, hload, hrecognised nested_not_shadowed⟩

/-- The same documents, with a second document of the name beside the one that
includes it. -/
def shadowedSources : Sources :=
  { nestedSources with buffers := nestedSources.buffers ++ [(⟨"/p/s/b.tex"⟩, ⟨"", 1⟩)] }

/-- An edge of the include graph that the search for a master does not
recognise. -/
theorem shadowed_edge_not_recognised :
    (Path.mk "/p/m.tex").IsDirect ∧
    ∃ g, shadowedSources.graph ⟨"/p/m.tex"⟩ = .ok g ∧ returningEdge ∈ g.edges ∧
      returningEdge.source.directory.startsWith (Path.mk "/p/m.tex").directory = true ∧
      (∀ d ∈ g.documents, d.path = returningEdge.source →
        shadowedSources.includesPath d returningEdge.target (Path.mk "/p/m.tex").directory
          = false) := by
  have hgraph := Sources.graph_eq_of_load (rfl : shadowedSources.load ⟨"/p/m.tex"⟩ = .ok _)
  exact ⟨by decide +kernel, _, hgraph, by decide +kernel, by decide +kernel, by decide +kernel⟩

end Graph

end LatexIndex
