/-
LatexIndex/Proofs/Exploration.lean

What one step of building an include graph can do, and how a property of all
steps becomes a property of the graph.

Following an inclusion ends in one of five ways, the constructors of
`Graph.Followed`; the theorem `followed_follow` says that there is no sixth.
Every later fact about graphs is proved by cases on it and lifted to whole
graphs by `graph_induction`, so nothing else looks into `Graph.follow`.
-/
import LatexIndex.Project.Explore

namespace LatexIndex

open Markup

theorem Path.same_iff {p q : Path} : p.same q = true ↔ p.parts = q.parts := by
  rw [Path.same, beq_iff_eq]

@[simp] theorem Path.same_refl (p : Path) : p.same p = true :=
  Path.same_iff.mpr rfl

/-- A document that was loaded from a path is the document at that path. -/
theorem Sources.path_of_load {sources : Sources} {path : Path} {d : Document}
    (h : sources.load path = .ok d) : d.path = path := by
  unfold Sources.load at h
  split at h
  · obtain rfl := Except.ok.inj h
    rfl
  · cases h

namespace Graph

/-! ### Looking documents up -/

theorem document?_eq_some {g : Graph} {p : Path} {d : Document}
    (h : g.document? p = some d) : d ∈ g.documents ∧ d.path.parts = p.parts := by
  have hsame := List.find?_some h
  exact ⟨List.mem_of_find?_eq_some h, Path.same_iff.mp hsame⟩

theorem document?_eq_none {g : Graph} {p : Path} :
    g.document? p = none ↔ ∀ d ∈ g.documents, d.path.parts ≠ p.parts := by
  simp [document?, Path.same_iff]

theorem contains_iff {g : Graph} {p : Path} :
    g.contains p = true ↔ ∃ d ∈ g.documents, d.path.parts = p.parts := by
  simp [contains, document?, Path.same_iff]

/-! ### Growing a graph -/

/-- The graph with a further record. -/
def note (g : Graph) (r : Record) : Graph :=
  { g with records := g.records ++ [r] }

/-- The graph with a further document. -/
def enter (g : Graph) (d : Document) : Graph :=
  { g with documents := g.documents ++ [d] }

@[simp] theorem documents_note (g : Graph) (r : Record) :
    (g.note r).documents = g.documents := rfl

@[simp] theorem documents_enter (g : Graph) (d : Document) :
    (g.enter d).documents = g.documents ++ [d] := rfl

/-- A view of the records grows by what the new record leaves in it. -/
theorem filterMap_note {α : Type} (g : Graph) (r : Record) (view? : Record → Option α) :
    (g.note r).records.filterMap view? = g.records.filterMap view? ++ (view? r).toList := by
  rcases h : view? r with - | a <;> simp [note, h]

@[simp] theorem edges_note (g : Graph) (r : Record) :
    (g.note r).edges = g.edges ++ r.edge?.toList :=
  filterMap_note g r Record.edge?

@[simp] theorem edges_enter (g : Graph) (d : Document) :
    (g.enter d).edges = g.edges := rfl

@[simp] theorem cycles_note (g : Graph) (r : Record) :
    (g.note r).cycles = g.cycles ++ r.cycle?.toList :=
  filterMap_note g r Record.cycle?

@[simp] theorem cycles_enter (g : Graph) (d : Document) :
    (g.enter d).cycles = g.cycles := rfl

/-! ### One inclusion -/

/-- What following an inclusion `i` of the document at `source` may make of
the graph `g`. -/
inductive Followed (sources : Sources) (masterDirectory source : Path) (g : Graph)
    (i : Inclusion) : Graph → Prop
  | missing :
      sources.resolve? i.target [masterDirectory, source.directory] ".tex" = none →
      Followed sources masterDirectory source g i (g.note ⟨source, i, .missing⟩)
  | cycle {target : Path} {existing : Document} :
      sources.resolve? i.target [masterDirectory, source.directory] ".tex" = some target →
      g.document? target = some existing → g.reaches existing.path source = true →
      Followed sources masterDirectory source g i (g.note ⟨source, i, .cycle target⟩)
  | joined {target : Path} {existing : Document} :
      sources.resolve? i.target [masterDirectory, source.directory] ".tex" = some target →
      g.document? target = some existing → g.reaches existing.path source = false →
      Followed sources masterDirectory source g i (g.note ⟨source, i, .edge existing.path⟩)
  | discovered {target : Path} {d : Document} :
      sources.resolve? i.target [masterDirectory, source.directory] ".tex" = some target →
      g.document? target = none → sources.load target = .ok d →
      Followed sources masterDirectory source g i
        ((g.enter d).note ⟨source, i, .edge target⟩)
  | unreadable {target : Path} {reason : ReadError} :
      sources.resolve? i.target [masterDirectory, source.directory] ".tex" = some target →
      g.document? target = none → sources.read target = .error reason →
      Followed sources masterDirectory source g i
        (g.note ⟨source, i, .unreadable target reason⟩)

variable {sources : Sources} {masterDirectory source : Path} {g g' : Graph} {i : Inclusion}
  {d : Document}

/-- Following an inclusion does one of the five things. -/
theorem followed_follow (sources : Sources) (masterDirectory source : Path) (g : Graph)
    (i : Inclusion) :
    Followed sources masterDirectory source g i
      (g.follow sources masterDirectory source i) := by
  rcases hr : sources.resolve? i.target [masterDirectory, source.directory] ".tex"
    with - | target
  · simp only [follow, hr]
    exact .missing hr
  rcases hd : g.document? target with - | existing
  · rcases ht : sources.read target with reason | ⟨text, revision⟩
    · simp only [follow, hr, hd, ht]
      exact .unreadable hr hd ht
    · simp only [follow, hr, hd, ht]
      exact .discovered hr hd (by simp only [Sources.load, ht])
  · rcases hc : g.reaches existing.path source with - | -
    · simp only [follow, hr, hd, hc]
      exact .joined hr hd hc
    · simp only [follow, hr, hd, hc]
      exact .cycle hr hd hc

/-- Following an inclusion keeps the documents, and adds at most one at the
end. -/
theorem Followed.documents_grow
    (h : Followed sources masterDirectory source g i g') : g.documents <+: g'.documents := by
  cases h with
  | missing | cycle | joined | unreadable => exact List.prefix_rfl
  | discovered => exact List.prefix_append _ _

theorem documents_grow_follow :
    g.documents <+: (g.follow sources masterDirectory source i).documents :=
  (followed_follow sources masterDirectory source g i).documents_grow

/-! ### All inclusions of a document -/

/-- What every step keeps, following all inclusions of a document keeps. -/
theorem followAll_induction {P : Graph → Prop}
    (step : ∀ g i, P g → d ∈ g.documents → i ∈ d.scan.inclusions →
      P (g.follow sources masterDirectory d.path i))
    (hg : P g) (hd : d ∈ g.documents) : P (g.followAll sources masterDirectory d) := by
  -- the inclusions not yet followed are some of the document's
  suffices h : ∀ (is : List Inclusion) (g : Graph), is ⊆ d.scan.inclusions → P g →
      d ∈ g.documents → P (is.foldl (follow sources masterDirectory d.path) g) from
    h d.scan.inclusions g (List.Subset.refl _) hg hd
  intro is
  induction is with
  | nil => exact fun g _ hg _ => hg
  | cons i is ih =>
      intro g his hg hd
      rw [List.cons_subset] at his
      exact ih _ his.2 (step g i hg hd his.1) (documents_grow_follow.subset hd)

theorem documents_grow_foldl (is : List Inclusion) :
    g.documents <+: (is.foldl (follow sources masterDirectory source) g).documents := by
  induction is generalizing g with
  | nil => exact List.prefix_rfl
  | cons i is ih => exact documents_grow_follow.trans ih

theorem documents_grow_followAll :
    g.documents <+: (g.followAll sources masterDirectory d).documents :=
  documents_grow_foldl d.scan.inclusions

/-! ### The whole exploration -/

/-- What every step keeps, an exploration keeps. -/
theorem explore_induction {P : Graph → Prop}
    (step : ∀ g d i, P g → d ∈ g.documents → i ∈ d.scan.inclusions →
      P (g.follow sources masterDirectory d.path i))
    {fuel next : Nat} (hg : P g) : P (explore sources masterDirectory fuel next g) := by
  induction fuel generalizing next g with
  | zero => exact hg
  | succ fuel ih =>
      unfold explore
      split
      · next d hd =>
          exact ih (followAll_induction (fun g i => step g d i) hg
            (List.mem_of_getElem? hd))
      · exact hg

end Graph

/-- The graph of a master that can be read. -/
theorem Sources.graph_eq_of_load {sources : Sources} {master : Path} {d : Document}
    (h : sources.load master = .ok d) :
    sources.graph master = .ok (Graph.explore sources master.directory
      (sources.knownPaths.length + 1) 0 ⟨[d], []⟩) := by
  simp only [Sources.graph, h, bind, Except.bind, pure, Except.pure]

/-- There is no graph without a master. -/
theorem Sources.exists_load_of_graph {sources : Sources} {master : Path} {g : Graph}
    (h : sources.graph master = .ok g) : ∃ d, sources.load master = .ok d := by
  rcases hl : sources.load master with failure | d
  · simp [Sources.graph, hl, bind, Except.bind] at h
  · exact ⟨d, rfl⟩

/-- **Induction over graphs**: what holds of the master alone and is kept by
every inclusion that is followed holds of the whole include graph. -/
theorem Graph.graph_induction {sources : Sources} {master : Path} {g : Graph}
    {P : Graph → Prop} (h : sources.graph master = .ok g)
    (init : ∀ d, sources.load master = .ok d → P ⟨[d], []⟩)
    (step : ∀ g d i, P g → d ∈ g.documents → i ∈ d.scan.inclusions →
      P (g.follow sources master.directory d.path i)) : P g := by
  obtain ⟨d, hl⟩ := Sources.exists_load_of_graph h
  rw [Sources.graph_eq_of_load hl] at h
  obtain rfl := Except.ok.inj h
  exact explore_induction step (init d hl)

end LatexIndex
