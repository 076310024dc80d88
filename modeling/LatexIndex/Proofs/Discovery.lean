/-
LatexIndex/Proofs/Discovery.lean

Which documents an include graph has.

`Sources.Included` is the answer without a graph: the least set of paths that
holds the master and, with a path, every path that one of its inclusions
resolves to and that something can be read at.  The main result says that the
exploration ends and that the documents it finds are exactly these, each
once.

The bound on the exploration is not a fact about LaTeX but about the disk:
every document except the master is written in the normal way, leads to
something to be read and has parts of its own, so there are no more of them
than known paths (`Grounded.length_le`).  Hence the exploration stops because
it has taken every document (`Explores`), and then every inclusion of every
document has been followed (`Handled`).

Paths are compared by their parts throughout.  The master alone may be
written in another way than inclusions name it; that both ways lead to the
same text and resolve names alike is `read_congr` and `resolve?_congr`.
-/
import LatexIndex.Proofs.Lookup
import LatexIndex.Proofs.RootedGraph

namespace LatexIndex

open Markup

namespace Sources

/-- The paths that belong to the project of a master. -/
inductive Included (sources : Sources) (master : Path) : Path → Prop
  | master : Included sources master master
  | inclusion {p q : Path} {d : Document} {i : Inclusion} :
      Included sources master p → sources.load p = .ok d → i ∈ d.scan.inclusions →
      sources.resolve? i.target [master.directory, p.directory] ".tex" = some q →
      sources.Loads q → Included sources master q

variable {sources : Sources}

/-- A name stands for one file, however the directories are written. -/
theorem resolve?_congr {p q : Path} (h : p.parts = q.parts) (name : String) (base : Path)
    (extension : String) :
    sources.resolve? name [base, p] extension = sources.resolve? name [base, q] extension := by
  simp only [resolve?, Path.candidates, List.map_cons, List.map_nil,
    Path.normalize_congr (Path.parts_join_congr h _)]

/-- What a name resolves to is a normal path where something is to be read. -/
theorem resolve?_eq_some {name : String} {bases : List Path} {extension : String} {p : Path}
    (h : sources.resolve? name bases extension = some p) :
    sources.has p = true ∧ ∃ q : Path, p = q.normalize := by
  have hmem := List.mem_of_find?_eq_some h
  obtain ⟨base, -, hbase⟩ := List.mem_map.mp hmem
  have hhas := List.find?_some h
  exact ⟨hhas, _, hbase.symm⟩

end Sources

namespace Graph

variable {sources : Sources} {master masterDirectory source : Path} {g g' : Graph}
  {i : Inclusion} {d : Document} {next : Nat}

/-! ### Where documents come from -/

/-- Every document was loaded from its path and belongs to the project, and
all but the first have known paths. -/
structure Grounded (sources : Sources) (master : Path) (g : Graph) : Prop where
  inhabited : g.documents ≠ []
  loaded : ∀ d ∈ g.documents, sources.load d.path = .ok d
  included : ∀ d ∈ g.documents, sources.Included master d.path
  known : ∀ d ∈ g.documents.tail, d.path.parts ∈ sources.knownPaths

theorem grounded_single (h : sources.load master = .ok d) : Grounded sources master ⟨[d], []⟩ := by
  obtain rfl := Sources.path_of_load h
  exact
    { inhabited := List.cons_ne_nil d []
      loaded := by simpa using h
      included := by simpa using Sources.Included.master
      known := by simp }

namespace Grounded

/-- Entering a document that an inclusion leads to. -/
theorem enter (h : Grounded sources master g) {s : Document} (hs : s ∈ g.documents)
    (hi : i ∈ s.scan.inclusions) {target : Path}
    (hr : sources.resolve? i.target [master.directory, s.path.directory] ".tex" = some target)
    (hd : sources.load target = .ok d) : Grounded sources master (g.enter d) := by
  obtain rfl := Sources.path_of_load hd
  obtain ⟨hhas, q, hq⟩ := Sources.resolve?_eq_some hr
  have hincluded : sources.Included master d.path :=
    .inclusion (h.included s hs) (h.loaded s hs) hi hr (Sources.loads_iff.mpr ⟨d, hd⟩)
  have hknown : d.path.parts ∈ sources.knownPaths := by
    rw [hq] at hhas ⊢
    exact Sources.parts_mem_knownPaths hhas
  constructor
  · simp
  · simpa [or_imp, forall_and, hd] using h.loaded
  · simpa [or_imp, forall_and, hincluded] using h.included
  · rw [documents_enter, List.tail_append_of_ne_nil h.inhabited]
    simpa [or_imp, forall_and, hknown] using h.known

/-- Every inclusion of a document keeps the documents grounded. -/
theorem step (h : Grounded sources master g) {s : Document} (hs : s ∈ g.documents)
    (hi : i ∈ s.scan.inclusions)
    (hf : Followed sources master.directory s.path g i g') : Grounded sources master g' := by
  cases hf with
  | missing | cycle | joined | unreadable =>
      exact ⟨h.inhabited, h.loaded, h.included, h.known⟩
  | discovered hr _ hd =>
      have he := h.enter hs hi hr hd
      exact ⟨he.inhabited, he.loaded, he.included, he.known⟩

/-- There is no more than one document for each known path, and the
master. -/
theorem length_le (h : Grounded sources master g)
    (hdistinct : (g.documents.map (·.path.parts)).Nodup) :
    g.documents.length ≤ sources.knownPaths.length + 1 := by
  obtain ⟨m, rest, hdocs⟩ := List.exists_cons_of_ne_nil h.inhabited
  have hknown := h.known
  rw [hdocs] at hdistinct hknown ⊢
  rw [List.map_cons, List.nodup_cons] at hdistinct
  have hsub : rest.map (·.path.parts) ⊆ sources.knownPaths := by
    intro parts hparts
    obtain ⟨d, hd, rfl⟩ := List.mem_map.mp hparts
    exact hknown d hd
  have hle := (List.subperm_of_subset hdistinct.2 hsub).length_le
  rw [List.length_map] at hle
  rw [List.length_cons]
  omega

end Grounded

/-! ### The exploration ends -/

/-- Taking documents from number `next` on until there are none left leads
from one graph to the other. -/
inductive Explores (sources : Sources) (masterDirectory : Path) : Nat → Graph → Graph → Prop
  | done {next : Nat} {g : Graph} :
      g.documents.length ≤ next → Explores sources masterDirectory next g g
  | take {next : Nat} {g g' : Graph} {d : Document} :
      g.documents[next]? = some d →
      Explores sources masterDirectory (next + 1) (g.followAll sources masterDirectory d) g' →
      Explores sources masterDirectory next g g'

/-- A graph that hangs from its master and whose documents are grounded. -/
def Sound (sources : Sources) (master : Path) (g : Graph) : Prop :=
  Rooted master g ∧ Grounded sources master g

theorem Sound.step (h : Sound sources master g) (hd : d ∈ g.documents)
    (hi : i ∈ d.scan.inclusions) :
    Sound sources master (g.follow sources master.directory d.path i) :=
  have hf := followed_follow sources master.directory d.path g i
  ⟨h.1.step ⟨d, hd, rfl⟩ hf, h.2.step hd hi hf⟩

theorem sound_single (h : sources.load master = .ok d) : Sound sources master ⟨[d], []⟩ := by
  refine ⟨?_, grounded_single h⟩
  obtain rfl := Sources.path_of_load h
  exact rooted_single d

theorem sound_of_graph (h : sources.graph master = .ok g) : Sound sources master g :=
  graph_induction h (fun _ => sound_single) fun _ _ _ hg hd hi => hg.step hd hi

/-- With as much fuel as there can be documents left, exploring stops for
want of documents. -/
theorem explores_explore {fuel : Nat} (hg : Sound sources master g)
    (hfuel : sources.knownPaths.length + 1 ≤ fuel + next) :
    Explores sources master.directory next g
      (explore sources master.directory fuel next g) := by
  induction fuel generalizing next g with
  | zero =>
      -- the fuel is gone, but so are the documents
      have hlen := hg.2.length_le hg.1.distinct
      exact .done (by omega)
  | succ fuel ih =>
      unfold explore
      split
      · next d hd =>
          refine .take hd (ih ?_ (by omega))
          exact followAll_induction (fun _ _ h hd hi => h.step hd hi) hg
            (List.mem_of_getElem? hd)
      · next hd => exact .done (List.getElem?_eq_none_iff.mp hd)

theorem explores_of_load (h : sources.load master = .ok d) :
    Explores sources master.directory 0 ⟨[d], []⟩
      (explore sources master.directory (sources.knownPaths.length + 1) 0 ⟨[d], []⟩) :=
  explores_explore (sound_single h) (Nat.le_refl _)

/-- Documents keep their numbers. -/
theorem getElem?_of_grow (h : g.documents <+: g'.documents) {n : Nat}
    (hd : g.documents[n]? = some d) : g'.documents[n]? = some d := by
  obtain ⟨rest, hrest⟩ := h
  rw [← hrest, List.getElem?_append_left (List.getElem?_eq_some_iff.mp hd).1, hd]

/-- What every inclusion keeps, told where it stands: `P m j` is about the graph
when inclusion `j` of document `m` is the next to be followed.  It holds of the
finished graph past its last document. -/
theorem explores_induction {P : Nat → Nat → Graph → Prop}
    (step : ∀ m j g d i, P m j g → g.documents[m]? = some d → d.scan.inclusions[j]? = some i →
      P m (j + 1) (g.follow sources masterDirectory d.path i))
    (turn : ∀ m g d, P m d.scan.inclusions.length g → g.documents[m]? = some d → P (m + 1) 0 g)
    (h : Explores sources masterDirectory next g g') (hg : P next 0 g) :
    ∃ m, g'.documents.length ≤ m ∧ P m 0 g' := by
  induction h with
  | @done next g hlen => exact ⟨next, hlen, hg⟩
  | @take next g g' d hd _ ih =>
      -- the inclusions fall into those that were followed and those that were not
      suffices hall : ∀ (rest followed : List Inclusion) (g : Graph),
          d.scan.inclusions = followed ++ rest → g.documents[next]? = some d →
          P next followed.length g →
          P (next + 1) 0 (rest.foldl (follow sources masterDirectory d.path) g) from
        ih (hall d.scan.inclusions [] g rfl hd hg)
      intro rest
      induction rest with
      | nil =>
          intro followed g hsplit hd hg
          rw [List.append_nil] at hsplit
          exact turn next g d (hsplit ▸ hg) hd
      | cons i rest ih =>
          intro followed g hsplit hd hg
          have hi : d.scan.inclusions[followed.length]? = some i := by simp [hsplit]
          refine ih (followed ++ [i]) _ (by rw [hsplit, List.append_assoc]; rfl)
            (getElem?_of_grow documents_grow_follow hd) ?_
          rw [List.length_append]
          exact step next followed.length g d i hg hd hi

/-- **Induction over graphs, place by place**: as `graph_induction`, with the
place of the next inclusion known. -/
theorem graph_place_induction {P : Nat → Nat → Graph → Prop} (h : sources.graph master = .ok g)
    (init : ∀ d, sources.load master = .ok d → P 0 0 ⟨[d], []⟩)
    (step : ∀ m j g d i, P m j g → g.documents[m]? = some d → d.scan.inclusions[j]? = some i →
      P m (j + 1) (g.follow sources master.directory d.path i))
    (turn : ∀ m g d, P m d.scan.inclusions.length g → g.documents[m]? = some d → P (m + 1) 0 g) :
    ∃ m, g.documents.length ≤ m ∧ P m 0 g := by
  obtain ⟨d, hl⟩ := Sources.exists_load_of_graph h
  rw [Sources.graph_eq_of_load hl] at h
  obtain rfl := Except.ok.inj h
  exact explores_induction step turn (explores_of_load hl) (init d hl)

/-! ### Nothing is left out -/

theorem contains_mono (h : g.documents <+: g'.documents) {p : Path}
    (hp : g.contains p = true) : g'.contains p = true := by
  obtain ⟨d, hd, hparts⟩ := contains_iff.mp hp
  exact contains_iff.mpr ⟨d, h.subset hd, hparts⟩

/-- Following an inclusion that leads to something readable makes it a
document, be it joined, refused as a cycle or new. -/
theorem Followed.contains {target : Path}
    (hf : Followed sources masterDirectory source g i g')
    (hr : sources.resolve? i.target [masterDirectory, source.directory] ".tex" = some target)
    (hl : sources.Loads target) : g'.contains target = true := by
  cases hf with
  | missing hr' =>
      rw [hr] at hr'
      cases hr'
  | cycle hr' hd _ =>
      obtain rfl := Option.some.inj (hr.symm.trans hr')
      exact contains_iff.mpr ⟨_, document?_eq_some hd⟩
  | joined hr' hd _ =>
      obtain rfl := Option.some.inj (hr.symm.trans hr')
      exact contains_iff.mpr ⟨_, document?_eq_some hd⟩
  | discovered hr' _ hd =>
      obtain rfl := Option.some.inj (hr.symm.trans hr')
      refine contains_iff.mpr ⟨_, List.mem_append_right _ (List.mem_singleton_self _), ?_⟩
      rw [Sources.path_of_load hd]
  | unreadable hr' _ he =>
      obtain rfl := Option.some.inj (hr.symm.trans hr')
      obtain ⟨d, hd⟩ := Sources.loads_iff.mp hl
      simp only [Sources.load, he] at hd
      cases hd

/-- Every inclusion of a document that leads to something readable leads to a
document of the graph. -/
def Handled (sources : Sources) (masterDirectory : Path) (g : Graph) (d : Document) : Prop :=
  ∀ i ∈ d.scan.inclusions, ∀ target : Path,
    sources.resolve? i.target [masterDirectory, d.path.directory] ".tex" = some target →
    sources.Loads target → g.contains target = true

theorem Handled.mono (h : g.documents <+: g'.documents)
    (hd : Handled sources masterDirectory g d) : Handled sources masterDirectory g' d :=
  fun i hi target hr hl => contains_mono h (hd i hi target hr hl)

theorem handled_followAll :
    Handled sources masterDirectory (g.followAll sources masterDirectory d) d := by
  unfold Handled followAll
  induction d.scan.inclusions generalizing g with
  | nil => simp
  | cons j is ih =>
      intro i hi target hr hl
      rcases List.mem_cons.mp hi with rfl | hi
      · have hf := followed_follow sources masterDirectory d.path g i
        exact contains_mono (documents_grow_foldl is) (hf.contains hr hl)
      · exact ih i hi target hr hl

/-- When no document is left to be taken, all of them have been handled. -/
theorem handled_of_explores (h : Explores sources masterDirectory next g g')
    (hg : ∀ d ∈ g.documents.take next, Handled sources masterDirectory g d) :
    ∀ d ∈ g'.documents, Handled sources masterDirectory g' d := by
  induction h with
  | done hlen =>
      rw [List.take_of_length_le hlen] at hg
      exact hg
  | @take next g g' d hd _ ih =>
      apply ih
      -- the documents below `next + 1` are those below `next`, and `d`
      have hgrow : g.documents <+: (g.followAll sources masterDirectory d).documents :=
        documents_grow_followAll
      have hlt : next < g.documents.length := (List.getElem?_eq_some_iff.mp hd).1
      have htake : (g.followAll sources masterDirectory d).documents.take (next + 1)
          = g.documents.take next ++ [d] := by
        obtain ⟨rest, hrest⟩ := hgrow
        rw [← hrest, List.take_append_of_le_length (by omega), List.take_add_one, hd]
        rfl
      intro a ha
      rw [htake] at ha
      rcases List.mem_append.mp ha with ha | ha
      · exact (hg a ha).mono hgrow
      · obtain rfl := List.mem_singleton.mp ha
        exact handled_followAll

/-- Every inclusion that leads to something readable was handled. -/
theorem handled_of_graph (h : sources.graph master = .ok g) :
    ∀ d ∈ g.documents, Handled sources master.directory g d := by
  obtain ⟨d, hm⟩ := Sources.exists_load_of_graph h
  rw [Sources.graph_eq_of_load hm] at h
  obtain rfl := Except.ok.inj h
  exact handled_of_explores (explores_of_load hm) (by simp)

/-- Once every document is handled, every path of the project has one. -/
theorem exists_document_of_included (hg : Sound sources master g)
    (hh : ∀ d ∈ g.documents, Handled sources master.directory g d) {p : Path}
    (hp : sources.Included master p) : ∃ d ∈ g.documents, d.path.parts = p.parts := by
  induction hp with
  | master =>
      obtain ⟨m, hm, hmaster⟩ := hg.1.root
      exact ⟨m, hm, by rw [hmaster]⟩
  | @inclusion p q d i _ hl hi hr hq ih =>
      -- the document at `p` may be written in another way, but has the same text
      obtain ⟨a, ha, hap⟩ := ih
      have hscan : a.scan = d.scan := Sources.load_congr hap (hg.2.loaded a ha) hl
      have hr' : sources.resolve? i.target [master.directory, a.path.directory] ".tex" = some q := by
        rw [Sources.resolve?_congr (Path.parts_directory_congr hap), hr]
      exact contains_iff.mp (hh a ha i (hscan ▸ hi) q hr' hq)

/-! ### The documents of a graph -/

/-- Positions in the order of discovery are the numbers below the number of
documents. -/
theorem exists_index?_iff (h : Rooted master g) (n : Nat) :
    (∃ p, g.index? p = some n) ↔ n < g.documents.length := by
  constructor
  · rintro ⟨p, hp⟩
    exact (List.findIdx?_eq_some_iff_getElem.mp hp).1
  · intro hn
    refine ⟨g.documents[n].path, List.findIdx?_eq_some_iff_getElem.mpr
      ⟨hn, Path.same_refl _, fun m hm => ?_⟩⟩
    -- an earlier document with the same parts would be this one
    rw [Path.same_iff]
    intro hparts
    refine List.nodup_iff_getElem?_ne_getElem?.mp h.distinct m n hm (by simpa using hn) ?_
    have hlt : m < g.documents.length := by omega
    simp [hn, hlt, hparts]

/-- **The documents of a graph are the paths of the project.**  From a master
that can be read the exploration comes to its end.  It lists no path twice,
it lists a path exactly if the project has it, and the positions it gives out
are the numbers below the number of documents. -/
theorem graph_documents_included (sources : Sources) (master : Path)
    (h : sources.Loads master) :
    ∃ m g, sources.load master = .ok m ∧ sources.graph master = .ok g ∧
      Explores sources master.directory 0 ⟨[m], []⟩ g ∧
      (g.documents.Pairwise fun a b => a.path.same b.path = false) ∧
      (∀ p, g.contains p = true ↔ ∃ q, sources.Included master q ∧ q.same p = true) ∧
      (∀ n, (∃ p, g.index? p = some n) ↔ n < g.documents.length) := by
  obtain ⟨m, hm⟩ := Sources.loads_iff.mp h
  have hgraph := Sources.graph_eq_of_load hm
  have hend : Explores sources master.directory 0 ⟨[m], []⟩ _ :=
    explores_explore (sound_single hm) (Nat.le_refl _)
  have hsound := sound_of_graph hgraph
  have hhandled := handled_of_explores hend (by simp)
  refine ⟨m, _, hm, hgraph, hend, hsound.1.pairwise_same, fun p => ?_,
    exists_index?_iff hsound.1⟩
  rw [contains_iff]
  constructor
  · rintro ⟨d, hd, hp⟩
    exact ⟨d.path, hsound.2.included d hd, Path.same_iff.mpr hp⟩
  · rintro ⟨q, hq, hqp⟩
    obtain ⟨d, hd, hdq⟩ := exists_document_of_included hsound hhandled hq
    exact ⟨d, hd, hdq.trans (Path.same_iff.mp hqp)⟩

/-- A master on disk, written with a slash too many, whose file names the
master and a file that is not UTF-8. -/
def brokenSources : Sources :=
  ⟨⟨[(["m.tex"], .file "\\input{a}".toUTF8),
      (["a.tex"], .file "\\input{m}\n\\input{b}".toUTF8),
      (["b.tex"], .file ⟨#[255]⟩)], [], "/"⟩, []⟩

theorem graph_documents_included_broken :
    brokenSources.Loads ⟨"//m.tex"⟩ ∧
    ∃ m g, brokenSources.load ⟨"//m.tex"⟩ = .ok m ∧ brokenSources.graph ⟨"//m.tex"⟩ = .ok g ∧
      Explores brokenSources (Path.mk "//m.tex").directory 0 ⟨[m], []⟩ g ∧
      (g.documents.Pairwise fun a b => a.path.same b.path = false) ∧
      (∀ p, g.contains p = true ↔
        ∃ q, brokenSources.Included ⟨"//m.tex"⟩ q ∧ q.same p = true) ∧
      (∀ n, (∃ p, g.index? p = some n) ↔ n < g.documents.length) := by
  have hm : brokenSources.Loads ⟨"//m.tex"⟩ := Sources.loads_iff.mpr ⟨_, rfl⟩
  exact ⟨hm, graph_documents_included brokenSources ⟨"//m.tex"⟩ hm⟩

end Graph

end LatexIndex
