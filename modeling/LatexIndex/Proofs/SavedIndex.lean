/-
LatexIndex/Proofs/SavedIndex.lean

The index of a project whose buffers were saved.

If files hold what files and buffers held before (`Sources.Mirrors`), every
inclusion is resolved and read alike, so the two explorations go hand in hand
and end with the same graph, but for the revisions of documents that came
from buffers (`graph_mirror`).  Labels and bibliographies are read off the
graph, so the snapshots agree as well (`Mirrors.snapshot_eq`).

What is compared are plain paths.  A directive may name a file by a path that
leads above the root; `..` then stays in the path, and a buffer is not found
under it where a file is.  Projects without such directives are `Confined`.
-/
import LatexIndex.Project.Snapshot
import LatexIndex.Proofs.Discovery
import LatexIndex.Proofs.Listing
import LatexIndex.Proofs.Saving

namespace LatexIndex

open Markup

/-! ### Without revisions -/

/-- The document as if it had been read from a file. -/
def Document.unversioned (d : Document) : Document :=
  { d with revision := none }

/-- The graph as if all its documents had been read from files. -/
def Graph.unversioned (g : Graph) : Graph :=
  { g with documents := g.documents.map Document.unversioned }

/-- The snapshot as if all its documents had been read from files. -/
def Snapshot.unversioned (s : Snapshot) : Snapshot :=
  { s with graph := s.graph.map Graph.unversioned }

namespace Sources

variable {sources saved : Sources} {p master : Path} {settings : Settings} {d : Document}

/-! ### Reading alike -/

theorem has_of_load (h : sources.load p = .ok d) : sources.has p = true := by
  rcases loads_iff.mpr ⟨d, h⟩ with hbuffer | ⟨bytes, -, hbytes, -⟩
  · rw [has, hbuffer]
    rfl
  · obtain ⟨place, hlook⟩ := Disk.lookUp_of_readBytes hbytes
    rw [has, Disk.isFile, hlook, Bool.or_true]

/-- What a name may stand for is written plainly, unless it leads above the
root. -/
theorem isPlain_of_mem_candidates {name extension : String} {bases : List Path}
    (h : p ∈ Path.candidates name bases extension) (hp : p.IsDirect) : p.IsPlain := by
  obtain ⟨base, -, rfl⟩ := List.mem_map.mp h
  exact ⟨hp, Path.normalize_normalize _⟩

namespace Mirrors

theorem resolve?_eq (h : Mirrors sources saved) {name extension : String} {bases : List Path}
    (hc : ∀ c ∈ Path.candidates name bases extension, c.IsDirect) :
    saved.resolve? name bases extension = sources.resolve? name bases extension :=
  List.find?_congr fun c hmem => h.has c (isPlain_of_mem_candidates hmem (hc c hmem))

theorem load_eq (h : Mirrors sources saved) (hp : p.IsPlain) (hhas : sources.has p = true) :
    saved.load p = (sources.load p).map Document.unversioned := by
  rw [load, load, h.read p hp hhas]
  rcases sources.read p with reason | ⟨text, revision⟩ <;> rfl

end Mirrors

end Sources

/-! ### The graph -/

namespace Graph

variable {sources saved : Sources} {masterDirectory source master : Path} {g g' : Graph}
  {i : Inclusion} {d : Document} {next : Nat}

theorem document?_unversioned (g : Graph) (path : Path) :
    g.unversioned.document? path = (g.document? path).map Document.unversioned := by
  rw [document?, unversioned, List.find?_map]
  rfl

theorem mentions_unversioned (g : Graph) : g.unversioned.mentions = g.mentions := by
  rw [mentions, unversioned, List.flatMap_map]
  rfl

theorem labels_unversioned (g : Graph) : g.unversioned.labels = g.labels := by
  rw [labels, unversioned, List.flatMap_map]
  rfl

/-- Following an inclusion leads to the same graph. -/
theorem follow_mirror (h : sources.Mirrors saved)
    (hc : ∀ c ∈ Path.candidates i.target [masterDirectory, source.directory] ".tex", c.IsDirect) :
    (g.follow sources masterDirectory source i).unversioned
      = g.unversioned.follow saved masterDirectory source i := by
  rw [follow, follow, h.resolve?_eq hc]
  rcases hr : sources.resolve? i.target [masterDirectory, source.directory] ".tex" with - | target
  · rfl
  · have hmem := List.mem_of_find?_eq_some hr
    have hplain := Sources.isPlain_of_mem_candidates hmem (hc target hmem)
    have hread := h.read target hplain (Sources.resolve?_eq_some hr).1
    dsimp only
    rw [document?_unversioned]
    rcases hd : g.document? target with - | existing
    · rw [hread]
      rcases sources.read target with reason | ⟨text, revision⟩
      · rfl
      · simp [unversioned, Except.map, Document.unversioned]
    · have hreaches : g.unversioned.reaches existing.path source = g.reaches existing.path source :=
        rfl
      dsimp only [Option.map_some, Document.unversioned]
      rw [hreaches]
      split <;> rfl

theorem followAll_mirror (h : sources.Mirrors saved)
    (hc : ∀ i ∈ d.scan.inclusions,
      ∀ c ∈ Path.candidates i.target [masterDirectory, d.path.directory] ".tex", c.IsDirect) :
    (g.followAll sources masterDirectory d).unversioned
      = g.unversioned.followAll saved masterDirectory d.unversioned := by
  show (d.scan.inclusions.foldl (follow sources masterDirectory d.path) g).unversioned
    = d.scan.inclusions.foldl (follow saved masterDirectory d.path) g.unversioned
  generalize d.scan.inclusions = is at hc
  induction is generalizing g with
  | nil => rfl
  | cons i is ih =>
      rw [List.foldl_cons, List.foldl_cons, ← follow_mirror h (hc i List.mem_cons_self)]
      exact ih fun j hj => hc j (List.mem_cons_of_mem i hj)

theorem Explores.documents_grow (h : Explores sources masterDirectory next g g') :
    g.documents <+: g'.documents := by
  induction h with
  | done => exact List.prefix_rfl
  | take _ _ ih => exact documents_grow_followAll.trans ih

/-- The two explorations go hand in hand. -/
theorem Explores.mirror (h : sources.Mirrors saved)
    (he : Explores sources masterDirectory next g g')
    (hc : ∀ d ∈ g'.documents, ∀ i ∈ d.scan.inclusions,
      ∀ c ∈ Path.candidates i.target [masterDirectory, d.path.directory] ".tex", c.IsDirect) :
    Explores saved masterDirectory next g.unversioned g'.unversioned := by
  induction he with
  | done hlen => exact .done (by simpa [unversioned] using hlen)
  | @take next g g' d hd hrest ih =>
      have hgrow : g.documents <+: g'.documents :=
        documents_grow_followAll.trans hrest.documents_grow
      have hmem : d ∈ g'.documents := hgrow.subset (List.mem_of_getElem? hd)
      refine .take (d := d.unversioned) (by simp [unversioned, hd]) ?_
      rw [← followAll_mirror h (hc d hmem)]
      exact ih hc

theorem Explores.unique {a b : Graph} (ha : Explores sources masterDirectory next g a)
    (hb : Explores sources masterDirectory next g b) : a = b := by
  induction ha with
  | done hlen =>
      cases hb with
      | done => rfl
      | take hd _ =>
          rw [List.getElem?_eq_none hlen] at hd
          cases hd
  | take hd _ ih =>
      cases hb with
      | done hlen =>
          rw [List.getElem?_eq_none hlen] at hd
          cases hd
      | take hd' hrest =>
          obtain rfl := Option.some.inj (hd.symm.trans hd')
          exact ih hrest

/-- **The graph of what was saved** is the graph of the buffers, but for
their revisions. -/
theorem graph_mirror (h : sources.Mirrors saved) (hm : master.IsPlain)
    (hg : sources.graph master = .ok g)
    (hc : ∀ d ∈ g.documents, ∀ i ∈ d.scan.inclusions,
      ∀ c ∈ Path.candidates i.target [master.directory, d.path.directory] ".tex", c.IsDirect) :
    saved.graph master = .ok g.unversioned := by
  obtain ⟨d, hload⟩ := Sources.exists_load_of_graph hg
  rw [Sources.graph_eq_of_load hload] at hg
  obtain rfl := Except.ok.inj hg
  have hsaved : saved.load master = .ok d.unversioned := by
    rw [h.load_eq hm (Sources.has_of_load hload), hload]
    rfl
  rw [Sources.graph_eq_of_load hsaved]
  rw [(explores_of_load hsaved).unique ((explores_of_load hload).mirror h hc)]

end Graph

/-! ### The snapshot -/

namespace Sources

variable {sources saved : Sources} {master : Path} {settings : Settings} {g : Graph}

/-- No inclusion and no bibliography of a project leads above the root, seen
from any directory that it is looked for in. -/
structure Confined (sources : Sources) (settings : Settings) (master : Path) : Prop where
  inclusions : ∀ g, sources.graph master = .ok g → ∀ d ∈ g.documents, ∀ i ∈ d.scan.inclusions,
    ∀ c ∈ Path.candidates i.target [master.directory, d.path.directory] ".tex", c.IsDirect
  bibliographies : ∀ g, sources.graph master = .ok g → ∀ m ∈ g.mentions,
    ∀ c ∈ Path.candidates m.occurrence.key (master.directory :: m.document.directory ::
      sources.searchPaths settings master.directory) ".bib", c.IsDirect

/-- What a mention stands for is plain and can be looked at. -/
theorem plain_of_bibliography? {m : Mention} {p : Path}
    (hc : ∀ c ∈ Path.candidates m.occurrence.key (master.directory :: m.document.directory ::
      sources.searchPaths settings master.directory) ".bib", c.IsDirect)
    (h : sources.bibliography? settings master.directory m = some p) :
    p.IsPlain ∧ sources.has p = true := by
  have hmem := List.mem_of_find?_eq_some h
  exact ⟨isPlain_of_mem_candidates hmem (hc p hmem), (resolve?_eq_some h).1⟩

namespace Mirrors

theorem bibliography?_eq (h : Mirrors sources saved) {m : Mention}
    (hc : ∀ c ∈ Path.candidates m.occurrence.key (master.directory :: m.document.directory ::
      sources.searchPaths settings master.directory) ".bib", c.IsDirect) :
    saved.bibliography? settings master.directory m
      = sources.bibliography? settings master.directory m := by
  have hpaths : saved.searchPaths settings master.directory
      = sources.searchPaths settings master.directory := by
    simp only [searchPaths, Disk.expandHome, h.home]
  rw [bibliography?, bibliography?, hpaths]
  exact h.resolve?_eq hc

theorem bibSource_eq (h : Mirrors sources saved) {p : Path} (hp : p.IsPlain)
    (hhas : sources.has p = true) : saved.bibSource p = sources.bibSource p := by
  rw [bibSource, bibSource, readBibliography, readBibliography, h.read p hp hhas]
  rcases sources.read p with reason | ⟨text, revision⟩ <;> rfl

/-- The index that is read off a graph. -/
theorem snapshotOf_eq (h : Mirrors sources saved)
    (hc : ∀ m ∈ g.mentions, ∀ c ∈ Path.candidates m.occurrence.key (master.directory ::
      m.document.directory :: sources.searchPaths settings master.directory) ".bib", c.IsDirect) :
    saved.snapshotOf settings master g.unversioned
      = (sources.snapshotOf settings master g).unversioned := by
  have hresolved : ∀ m ∈ g.mentions, saved.bibliography? settings master.directory m
      = sources.bibliography? settings master.directory m :=
    fun m hm => h.bibliography?_eq (hc m hm)
  have hfiles : saved.bibliographies settings master.directory g.unversioned
      = sources.bibliographies settings master.directory g := by
    rw [bibliographies, bibliographies, Graph.mentions_unversioned,
      List.filterMap_congr hresolved]
  have hsources : (saved.bibliographies settings master.directory g.unversioned).map saved.bibSource
      = (sources.bibliographies settings master.directory g).map sources.bibSource := by
    rw [hfiles]
    refine List.map_congr_left fun p hp => ?_
    obtain ⟨m, hm, hmp⟩ := List.mem_filterMap.mp (Listing.mem_of_mem_distinctFrom hp)
    obtain ⟨hplain, hhas⟩ := plain_of_bibliography? (hc m hm) hmp
    exact h.bibSource_eq hplain hhas
  have hmissing : saved.bibliographyWarnings settings master.directory g.unversioned
      = sources.bibliographyWarnings settings master.directory g := by
    rw [bibliographyWarnings, bibliographyWarnings, Graph.mentions_unversioned,
      List.filter_congr fun m hm => by rw [hresolved m hm]]
  have hlabels : LabelIndex.ofGraph g.unversioned = LabelIndex.ofGraph g := by
    rw [LabelIndex.ofGraph, LabelIndex.ofGraph, Graph.labels_unversioned]
  have hitems : g.unversioned.documents.filterMap Document.bibitems?
      = g.documents.filterMap Document.bibitems? := by
    rw [Graph.unversioned, List.filterMap_map]
    rfl
  have hfaults : g.unversioned.documents.flatMap Document.warnings
      = g.documents.flatMap Document.warnings := by
    rw [Graph.unversioned, List.flatMap_map]
    rfl
  simp only [snapshotOf, hsources, hmissing, hlabels, hitems, hfaults]
  rfl

/-- **The index of what was saved** is the index of the buffers, but for
their revisions. -/
theorem snapshot_eq (h : Mirrors sources saved) (hm : master.IsPlain)
    (hhas : sources.has master = true) (hc : sources.Confined settings master) :
    saved.snapshot settings master = (sources.snapshot settings master).unversioned := by
  rcases hg : sources.graph master with failure | g
  · -- there is a file, but it is not text
    have hload : sources.load master = .error failure := by
      rcases hload : sources.load master with other | d
      · simpa [graph, hload, bind, Except.bind] using hg
      · rw [graph_eq_of_load hload] at hg
        cases hg
    have hsaved : saved.graph master = .error failure := by
      rw [graph, h.load_eq hm hhas, hload]
      rfl
    rw [snapshot, snapshot, hsaved, hg]
    rfl
  · have hsaved := Graph.graph_mirror h hm hg (hc.inclusions g hg)
    rw [snapshot, snapshot, hsaved, hg]
    exact h.snapshotOf_eq (hc.bibliographies g hg)

end Mirrors

end Sources

end LatexIndex
