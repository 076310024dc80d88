/-
LatexIndex/Proofs/Dependence.lean

What a build depends on.

A build reads the master, and for every inclusion and every bibliography that
it comes across it finds out which file is meant and reads that file.  It looks
at nothing else: where two sources agree on these, they have the same graph
(`graph_congr`) and the same index (`snapshotOf_congr`).
-/
import LatexIndex.Proofs.Citations
import LatexIndex.Proofs.SavedIndex

namespace LatexIndex

open Markup

/-! ### What the graph depends on -/

namespace Graph

variable {sources other : Sources} {masterDirectory source master : Path} {g g' : Graph}
  {i : Inclusion} {d : Document} {next : Nat}

/-- An inclusion means the same, and the same is read there. -/
def SameInclusion (sources other : Sources) (masterDirectory source : Path) (i : Inclusion) :
    Prop :=
  other.resolve? i.target [masterDirectory, source.directory] ".tex"
      = sources.resolve? i.target [masterDirectory, source.directory] ".tex" ∧
    ∀ target, sources.resolve? i.target [masterDirectory, source.directory] ".tex" = some target →
      other.read target = sources.read target

theorem follow_congr (h : SameInclusion sources other masterDirectory source i) :
    g.follow other masterDirectory source i = g.follow sources masterDirectory source i := by
  rw [follow, follow, h.1]
  rcases hr : sources.resolve? i.target [masterDirectory, source.directory] ".tex" with - | target
  · rfl
  · dsimp only
    rw [h.2 target hr]

theorem followAll_congr
    (h : ∀ i ∈ d.scan.inclusions, SameInclusion sources other masterDirectory d.path i) :
    g.followAll other masterDirectory d = g.followAll sources masterDirectory d := by
  unfold followAll
  generalize d.scan.inclusions = is at h
  induction is generalizing g with
  | nil => rfl
  | cons i is ih =>
      rw [List.foldl_cons, List.foldl_cons, follow_congr (h i List.mem_cons_self)]
      exact ih fun j hj => h j (List.mem_cons_of_mem i hj)

theorem Explores.congr (he : Explores sources masterDirectory next g g')
    (h : ∀ d ∈ g'.documents, ∀ i ∈ d.scan.inclusions,
      SameInclusion sources other masterDirectory d.path i) :
    Explores other masterDirectory next g g' := by
  induction he with
  | done hlen => exact .done hlen
  | @take next g g' d hd hrest ih =>
      have hgrow : g.documents <+: g'.documents :=
        documents_grow_followAll.trans hrest.documents_grow
      have hmem : d ∈ g'.documents := hgrow.subset (List.mem_of_getElem? hd)
      refine .take hd ?_
      rw [followAll_congr (h d hmem)]
      exact ih h

/-- **Two builds with the same master and the same inclusions have the same
graph.** -/
theorem graph_congr (hload : other.load master = sources.load master)
    (h : ∀ g, sources.graph master = .ok g → ∀ d ∈ g.documents, ∀ i ∈ d.scan.inclusions,
      SameInclusion sources other master.directory d.path i) :
    other.graph master = sources.graph master := by
  rcases hm : sources.load master with failure | d
  · rw [Sources.graph, Sources.graph, hload, hm]
    rfl
  · have hgraph := Sources.graph_eq_of_load hm
    rw [Sources.graph_eq_of_load (hload.trans hm), hgraph,
      (explores_of_load (hload.trans hm)).unique ((explores_of_load hm).congr (h _ hgraph))]

end Graph

/-! ### What the index depends on -/

namespace Sources

variable {sources other : Sources} {settings : Settings} {master p : Path} {g : Graph}

theorem bibSource_congr (h : other.read p = sources.read p) :
    other.bibSource p = sources.bibSource p := by
  rw [bibSource, bibSource, readBibliography, readBibliography, h]

theorem snapshotOf_congr
    (h : ∀ m ∈ g.mentions,
      other.bibliography? settings master.directory m
          = sources.bibliography? settings master.directory m ∧
        ∀ target, sources.bibliography? settings master.directory m = some target →
          other.read target = sources.read target) :
    other.snapshotOf settings master g = sources.snapshotOf settings master g := by
  have hfiles : other.bibliographies settings master.directory g
      = sources.bibliographies settings master.directory g := by
    rw [bibliographies, bibliographies, List.filterMap_congr fun m hm => (h m hm).1]
  have hsources : (other.bibliographies settings master.directory g).map other.bibSource
      = (sources.bibliographies settings master.directory g).map sources.bibSource := by
    rw [hfiles]
    refine List.map_congr_left fun p hp => bibSource_congr ?_
    obtain ⟨m, hm, hmp⟩ := mem_bibliographies_iff.mp hp
    exact (h m hm).2 p hmp
  have hmissing : other.bibliographyWarnings settings master.directory g
      = sources.bibliographyWarnings settings master.directory g := by
    rw [bibliographyWarnings, bibliographyWarnings,
      List.filter_congr fun m hm => by rw [(h m hm).1]]
  simp only [snapshotOf, hsources, hmissing]

/-- The bibliography files of an index are those that can be read. -/
theorem bibFiles_snapshotOf (sources : Sources) (settings : Settings) (master : Path) (g : Graph) :
    (sources.snapshotOf settings master g).bibFiles =
      ((sources.bibliographies settings master.directory g).filterMap sources.bibFile?).map
        (·.path) := by
  simp only [snapshotOf, List.filterMap_map]
  rfl

theorem exists_bibFile? (h : sources.Loads p) : ∃ file, sources.bibFile? p = some file := by
  obtain ⟨d, hd⟩ := loads_iff.mp h
  rcases hread : sources.read p with reason | ⟨text, revision⟩
  · simp [load, hread] at hd
  · exact ⟨_, by simp only [bibFile?, bibSource, readBibliography, hread]; rfl⟩

theorem snapshot_eq_snapshotOf (hg : sources.graph master = .ok g) :
    sources.snapshot settings master = sources.snapshotOf settings master g := by
  rw [snapshot, hg]

end Sources

end LatexIndex
