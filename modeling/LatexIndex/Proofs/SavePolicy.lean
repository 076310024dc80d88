/-
LatexIndex/Proofs/SavePolicy.lean

Which saves may be ignored.

Saving a file asks for a rebuild only if the file is known to the project: as
its master, a document or a bibliography.  A build looks at more than that.
For every name it tries one candidate after the other until there is
something to read, and a candidate that was tried in vain is not known to the
project; when a file is written there, the name means that file.  The paths
that a build looks at are those that it *consults*, and they are all it
depends on.

So a save that asks for no rebuild changes nothing if the path was not
consulted; and if it was, then an empty file there already changes what is
reported (`unconsulted_save_changes_nothing`).
-/
import LatexIndex.Session
import LatexIndex.Proofs.Dependence
import LatexIndex.Proofs.SavedMaster
import LatexIndex.Proofs.Writing

namespace LatexIndex

open Markup

/-! ### Candidates that are tried -/

namespace Sources

variable {sources other : Sources} {name extension : String} {bases : List Path} {p c : Path}

/-- A name is looked for at a path: the path is a candidate, and no better one
has anything to read. -/
def Tries (sources : Sources) (name : String) (bases : List Path) (extension : String)
    (p : Path) : Prop :=
  ∃ better worse, Path.candidates name bases extension = better ++ p :: worse ∧ p ∉ better ∧
    ∀ c ∈ better, sources.has c = false

/-- Two sources that differ at one path only. -/
def AgreeExcept (p : Path) (sources other : Sources) (paths : List Path) : Prop :=
  ∀ c ∈ paths, c ≠ p → other.has c = sources.has c

theorem Tries.mem (h : sources.Tries name bases extension p) :
    p ∈ Path.candidates name bases extension := by
  obtain ⟨better, worse, hcandidates, -, -⟩ := h
  rw [hcandidates]
  exact List.mem_append_right better List.mem_cons_self

theorem tries_of_resolve? (h : sources.resolve? name bases extension = some c) :
    sources.Tries name bases extension c := by
  obtain ⟨hhas, better, worse, hcandidates, hbetter⟩ := List.find?_eq_some_iff_append.mp h
  have hnone : ∀ b ∈ better, sources.has b = false := by simpa using hbetter
  refine ⟨better, worse, hcandidates, fun hmem => ?_, hnone⟩
  rw [hnone c hmem] at hhas
  cases hhas

/-- A name means the file at the path it is looked for at, once there is
one. -/
theorem resolve?_of_tries (h : sources.Tries name bases extension p)
    (hagree : AgreeExcept p sources other (Path.candidates name bases extension))
    (hhas : other.has p = true) : other.resolve? name bases extension = some p := by
  obtain ⟨better, worse, hcandidates, hnew, hbetter⟩ := h
  have hnone : better.find? other.has = none := by
    rw [List.find?_eq_none]
    intro c hc
    have hmem : c ∈ Path.candidates name bases extension := by
      rw [hcandidates]
      exact List.mem_append_left _ hc
    have hne : c ≠ p := fun heq => hnew (heq ▸ hc)
    rw [hagree c hmem hne, hbetter c hc]
    exact Bool.false_ne_true
  rw [resolve?, hcandidates, List.find?_append, hnone, Option.none_or, List.find?_cons, hhas]

/-- A name that is not looked for at a path means what it meant, whatever is
there. -/
theorem resolve?_eq_of_not_tries (h : ¬ sources.Tries name bases extension p)
    (hagree : AgreeExcept p sources other (Path.candidates name bases extension)) :
    other.resolve? name bases extension = sources.resolve? name bases extension := by
  by_cases hp : p ∈ Path.candidates name bases extension
  · obtain ⟨better, worse, hcandidates, hnew⟩ := List.eq_append_cons_of_mem hp
    have hsame : better.find? other.has = better.find? sources.has := by
      refine List.find?_congr fun c hc => hagree c ?_ fun heq => hnew (heq ▸ hc)
      rw [hcandidates]
      exact List.mem_append_left _ hc
    -- otherwise the path would be tried
    have hfound : (better.find? sources.has).isSome = true := by
      by_contra hnone
      refine h ⟨better, worse, hcandidates, hnew, fun c hc => ?_⟩
      rw [Bool.not_eq_true, Option.isSome_eq_false_iff, Option.isNone_iff_eq_none,
        List.find?_eq_none] at hnone
      simpa using hnone c hc
    rw [resolve?, resolve?, hcandidates, List.find?_append, List.find?_append, hsame,
      Option.or_of_isSome hfound, Option.or_of_isSome hfound]
  · exact List.find?_congr fun c hc => hagree c hc fun heq => hp (heq ▸ hc)

end Sources

/-! ### What a build consults -/

namespace Sources

variable {sources other : Sources} {settings : Settings} {master p : Path} {g : Graph}

/-- The paths that a build looks at: those that an inclusion or a bibliography
is looked for at and, when the master is missing, those above which or at
which something is missing on the way to the master. -/
inductive Consults (sources : Sources) (settings : Settings) (master : Path) : Path → Prop
  | inclusion {g : Graph} {d : Document} {i : Inclusion} {p : Path} :
      sources.graph master = .ok g → d ∈ g.documents → i ∈ d.scan.inclusions →
      sources.Tries i.target [master.directory, d.path.directory] ".tex" p →
      Consults sources settings master p
  | bibliography {g : Graph} {m : Mention} {p : Path} :
      sources.graph master = .ok g → m ∈ g.mentions →
      sources.Tries m.occurrence.key (master.directory :: m.document.directory ::
        sources.searchPaths settings master.directory) ".bib" p →
      Consults sources settings master p
  | way {above : Place} {p : Path} :
      sources.has master = false → above <+: master.place →
      sources.disk.node? above = none → above <+: p.place →
      Consults sources settings master p

/-- What is known when a file may be written at a plain path that is not the
master's: the file can be written, no buffer hides it, and neither the master
nor any name leads above the root. -/
structure Elsewhere (sources : Sources) (settings : Settings) (master p : Path) : Prop where
  plain : p.IsPlain
  writable : sources.disk.Writable p.place
  closed : sources.buffers.find? p = none
  direct : master.IsDirect
  apart : master.place ≠ p.place
  confined : sources.Confined settings master

namespace Elsewhere

variable {bytes : ByteArray}

theorem agree (h : sources.Elsewhere settings master p) {paths : List Path}
    (hpaths : ∀ c ∈ paths, c.IsPlain) : AgreeExcept p sources (sources.write p bytes) paths := by
  intro c hc hne
  have hplain := hpaths c hc
  exact has_write h.writable hplain.1 fun hplace => hne (hplain.eq_of_place h.plain hplace)

theorem read_eq (h : sources.Elsewhere settings master p) {c : Path} (hc : c.IsPlain)
    (hne : c ≠ p) (hhas : sources.has c = true) :
    (sources.write p bytes).read c = sources.read c :=
  read_write h.writable hc.1 (fun hplace => hne (hc.eq_of_place h.plain hplace)) hhas

theorem has_master (h : sources.Elsewhere settings master p) :
    (sources.write p bytes).has master = sources.has master :=
  has_write h.writable h.direct h.apart

theorem load_master (h : sources.Elsewhere settings master p) (hhas : sources.has master = true) :
    (sources.write p bytes).load master = sources.load master := by
  rw [load, load, read_write h.writable h.direct h.apart hhas]

theorem plain_inclusion (h : sources.Elsewhere settings master p) (hg : sources.graph master = .ok g)
    {d : Document} (hd : d ∈ g.documents) {i : Inclusion} (hi : i ∈ d.scan.inclusions) :
    ∀ c ∈ Path.candidates i.target [master.directory, d.path.directory] ".tex", c.IsPlain :=
  fun c hc => isPlain_of_mem_candidates hc (h.confined.inclusions g hg d hd i hi c hc)

theorem plain_bibliography (h : sources.Elsewhere settings master p)
    (hg : sources.graph master = .ok g) {m : Mention} (hm : m ∈ g.mentions) :
    ∀ c ∈ Path.candidates m.occurrence.key (master.directory :: m.document.directory ::
      sources.searchPaths settings master.directory) ".bib", c.IsPlain :=
  fun c hc => isPlain_of_mem_candidates hc (h.confined.bibliographies g hg m hm c hc)

/-- A name that is not looked for at the path means the same, and the same is
read there. -/
theorem resolve?_eq (h : sources.Elsewhere settings master p) {name extension : String}
    {bases : List Path} (hplain : ∀ c ∈ Path.candidates name bases extension, c.IsPlain)
    (hnot : ¬ sources.Tries name bases extension p) :
    (sources.write p bytes).resolve? name bases extension
        = sources.resolve? name bases extension ∧
      ∀ target, sources.resolve? name bases extension = some target →
        (sources.write p bytes).read target = sources.read target := by
  refine ⟨resolve?_eq_of_not_tries hnot (h.agree hplain), fun target htarget => ?_⟩
  have hmem := List.mem_of_find?_eq_some htarget
  have hne : target ≠ p := fun heq => hnot (heq ▸ tries_of_resolve? htarget)
  exact h.read_eq (hplain target hmem) hne (resolve?_eq_some htarget).1

/-- Where no inclusion is looked for, writing does not change the graph. -/
theorem graph_eq (h : sources.Elsewhere settings master p) (hhas : sources.has master = true)
    (hnot : ∀ g, sources.graph master = .ok g → ∀ d ∈ g.documents, ∀ i ∈ d.scan.inclusions,
      ¬ sources.Tries i.target [master.directory, d.path.directory] ".tex" p) :
    (sources.write p bytes).graph master = sources.graph master :=
  Graph.graph_congr (h.load_master hhas) fun g hg d hd i hi =>
    h.resolve?_eq (h.plain_inclusion hg hd hi) (hnot g hg d hd i hi)

/-- **Writing where a build does not look changes nothing.** -/
theorem snapshot_eq (h : sources.Elsewhere settings master p)
    (hnot : ¬ sources.Consults settings master p) :
    (sources.write p bytes).snapshot settings master = sources.snapshot settings master := by
  rcases hhas : sources.has master with - | -
  · -- the master is missing, for the same reason as before
    obtain ⟨reason, hread⟩ := exists_error_of_has_false hhas
    have hsame : (sources.write p bytes).read master = .error reason := by
      rw [read_write_of_unmade h.writable h.direct hhas, hread]
      exact fun above habove hnone hbelow => hnot (.way hhas habove hnone hbelow)
    rw [snapshot_of_read_error hsame, snapshot_of_read_error hread]
  · have hgraph : (sources.write p bytes).graph master = sources.graph master :=
      h.graph_eq hhas fun g hg d hd i hi htries => hnot (.inclusion hg hd hi htries)
    rw [snapshot, snapshot, hgraph]
    rcases hg : sources.graph master with failure | g
    · rfl
    · exact snapshotOf_congr fun m hm =>
        h.resolve?_eq (h.plain_bibliography hg hm) fun htries => hnot (.bibliography hg hm htries)

/-- The documents of a confined project are the master and plain paths. -/
theorem plain_document (h : sources.Elsewhere settings master p)
    (hg : sources.graph master = .ok g) {d : Document} (hd : d ∈ g.documents) :
    d.path = master ∨ d.path.IsPlain := by
  have hsound := Graph.sound_of_graph hg
  generalize hpath : d.path = q
  have hq := hpath ▸ hsound.2.included d hd
  cases hq with
  | master => exact .inl rfl
  | @inclusion source _ d₀ i hsource hload hi hr _ =>
      -- the including document may be written in another way
      obtain ⟨a, ha, hparts⟩ :=
        Graph.exists_document_of_included hsound (Graph.handled_of_graph hg) hsource
      have hscan : a.scan = d₀.scan := load_congr hparts (hsound.2.loaded a ha) hload
      rw [← resolve?_congr (Path.parts_directory_congr hparts)] at hr
      exact .inr (h.plain_inclusion hg ha (hscan ▸ hi) q (List.mem_of_find?_eq_some hr))

/-- A document that is not at the path is loaded as before. -/
theorem load_document (h : sources.Elsewhere settings master p)
    (hg : sources.graph master = .ok g) {d : Document} (hd : d ∈ g.documents)
    (hne : g.contains p = false) :
    (sources.write p bytes).load d.path = .ok d := by
  have hload := (Graph.sound_of_graph hg).2.loaded d hd
  have hhas := has_of_load hload
  have hread : (sources.write p bytes).read d.path = sources.read d.path := by
    rcases h.plain_document hg hd with hmaster | hplain
    · rw [hmaster] at hhas ⊢
      exact read_write h.writable h.direct h.apart hhas
    · refine h.read_eq hplain (fun heq => ?_) hhas
      rw [Graph.contains_iff.mpr ⟨d, hd, congrArg Path.parts heq⟩] at hne
      cases hne
  rw [← hload, load, load, hread]

end Elsewhere

/-- A bibliography that is meant and can be read is a file of the index. -/
theorem any_bibFiles {m : Mention} (hm : m ∈ g.mentions)
    (hr : sources.bibliography? settings master.directory m = some p) (hl : sources.Loads p) :
    (sources.snapshotOf settings master g).bibFiles.any (·.same p) = true := by
  have hp := mem_bibliographies_iff.mpr ⟨m, hm, hr⟩
  obtain ⟨file, hfile⟩ := exists_bibFile? hl
  rw [bibFiles_snapshotOf, List.any_eq_true]
  refine ⟨file.path, List.mem_map_of_mem (List.mem_filterMap.mpr ⟨p, hp, hfile⟩), ?_⟩
  rw [(bibFile?_eq_some hfile).1, Path.same_refl]

/-- The documents of a graph are the master and those that are told. -/
theorem documents_of_graph (hg : sources.graph master = .ok g) {d : Document}
    (hload : sources.load master = .ok d) : ∃ rest, g.documents = d :: rest := by
  rw [graph_eq_of_load hload] at hg
  obtain rfl := Except.ok.inj hg
  obtain ⟨rest, hrest⟩ := (Graph.explores_of_load hload).documents_grow
  exact ⟨rest, hrest.symm⟩

/-- Two builds of one master with the same report have documents at the same
paths. -/
theorem paths_of_report {g' : Graph} (hg : sources.graph master = .ok g)
    (hg' : other.graph master = .ok g') (hload : other.load master = sources.load master)
    (hreport : (other.snapshot settings master).report
      = (sources.snapshot settings master).report) :
    g'.documents.map (·.path) = g.documents.map (·.path) := by
  obtain ⟨m, hm⟩ := exists_load_of_graph hg
  obtain ⟨rest, hrest⟩ := documents_of_graph hg hm
  obtain ⟨rest', hrest'⟩ := documents_of_graph hg' (hload.trans hm)
  have hincluded := congrArg Report.includeFiles hreport
  rw [snapshot_eq_snapshotOf hg, snapshot_eq_snapshotOf hg'] at hincluded
  have hpaths : rest'.map (·.path) = rest.map (·.path) := by
    have hg'docs : (other.snapshotOf settings master g').documents = g'.documents := rfl
    have hgdocs : (sources.snapshotOf settings master g).documents = g.documents := rfl
    simpa only [Snapshot.report, Snapshot.includedDocuments, hg'docs, hgdocs, hrest, hrest',
      List.drop_succ_cons, List.drop_zero] using hincluded
  rw [hrest, hrest', List.map_cons, List.map_cons, hpaths]

namespace Elsewhere

/-- A name that is looked for at the path means the file that was written
there. -/
theorem resolve?_of_written (h : sources.Elsewhere settings master p) (bytes : ByteArray)
    {name extension : String} {bases : List Path}
    (hplain : ∀ c ∈ Path.candidates name bases extension, c.IsPlain)
    (htries : sources.Tries name bases extension p) :
    (sources.write p bytes).resolve? name bases extension = some p :=
  resolve?_of_tries htries (h.agree hplain) (has_write_self h.writable h.plain)

theorem loads_of_written (h : sources.Elsewhere settings master p) (text : String) :
    (sources.write p text.toUTF8).Loads p := by
  refine loads_iff.mpr ⟨⟨p, none, scan text⟩, ?_⟩
  rw [load, read_write_self h.writable h.plain h.closed]

/-- An empty file where an inclusion is looked for becomes a document. -/
theorem report_ne_of_inclusion (h : sources.Elsewhere settings master p)
    (hg : sources.graph master = .ok g) (hdoc : g.contains p = false) {d : Document}
    (hd : d ∈ g.documents) {i : Inclusion} (hi : i ∈ d.scan.inclusions)
    (htries : sources.Tries i.target [master.directory, d.path.directory] ".tex" p) :
    ((sources.write p "".toUTF8).snapshot settings master).report
      ≠ (sources.snapshot settings master).report := by
  intro hreport
  obtain ⟨m, hm⟩ := exists_load_of_graph hg
  have hload := @load_master sources settings master p "".toUTF8 h (has_of_load hm)
  have hg' := graph_eq_of_load (hload.trans hm)
  have hpaths := paths_of_report hg hg' hload hreport
  generalize Graph.explore _ _ _ _ _ = g' at hg' hpaths
  -- the including document is in the new graph too
  have hd' : d ∈ g'.documents := by
    obtain ⟨d', hd', hpath⟩ : ∃ d' ∈ g'.documents, d'.path = d.path := by
      have hmem : d.path ∈ g'.documents.map (·.path) := hpaths ▸ List.mem_map_of_mem hd
      exact List.mem_map.mp hmem
    have hloaded := (Graph.sound_of_graph hg').2.loaded d' hd'
    rw [hpath, h.load_document hg hd hdoc] at hloaded
    exact Except.ok.inj hloaded ▸ hd'
  have hresolved := h.resolve?_of_written "".toUTF8 (h.plain_inclusion hg hd hi) htries
  -- so the path is a document there, and hence it was one before
  obtain ⟨e, he, hparts⟩ :=
    Graph.contains_iff.mp
      (Graph.handled_of_graph hg' d hd' i hi p hresolved (h.loads_of_written ""))
  have hmem : e.path ∈ g.documents.map (·.path) := hpaths ▸ List.mem_map_of_mem he
  obtain ⟨e', he', hpath⟩ := List.mem_map.mp hmem
  rw [Graph.contains_iff.mpr ⟨e', he', by rw [hpath, hparts]⟩] at hdoc
  cases hdoc

/-- An empty file where a bibliography and no inclusion is looked for becomes a
bibliography. -/
theorem report_ne_of_bibliography (h : sources.Elsewhere settings master p)
    (hhas : sources.has master = true) (hg : sources.graph master = .ok g)
    (hbib : (sources.snapshot settings master).bibFiles.any (·.same p) = false)
    (hnot : ∀ d ∈ g.documents, ∀ i ∈ d.scan.inclusions,
      ¬ sources.Tries i.target [master.directory, d.path.directory] ".tex" p) {m : Mention}
    (hm : m ∈ g.mentions)
    (htries : sources.Tries m.occurrence.key (master.directory :: m.document.directory ::
      sources.searchPaths settings master.directory) ".bib" p) :
    ((sources.write p "".toUTF8).snapshot settings master).report
      ≠ (sources.snapshot settings master).report := by
  intro hreport
  have hg' : (sources.write p "".toUTF8).graph master = .ok g := by
    rw [h.graph_eq hhas, hg]
    intro g₁ hg₁
    obtain rfl := Except.ok.inj (hg.symm.trans hg₁)
    exact hnot
  have hresolved : (sources.write p "".toUTF8).bibliography? settings master.directory m
      = some p :=
    h.resolve?_of_written "".toUTF8 (h.plain_bibliography hg hm) htries
  have hknown : ((sources.write p "".toUTF8).snapshot settings master).bibFiles.any
      (·.same p) = true := by
    rw [snapshot_eq_snapshotOf hg']
    exact any_bibFiles hm hresolved (h.loads_of_written "")
  have hfiles : ((sources.write p "".toUTF8).snapshot settings master).bibFiles
      = (sources.snapshot settings master).bibFiles :=
    congrArg Report.bibFiles hreport
  rw [hfiles, hbib] at hknown
  cases hknown

/-- **An empty file where a build looks changes the report**, if the file is
not yet known. -/
theorem report_ne (h : sources.Elsewhere settings master p) (hhas : sources.has master = true)
    (hdoc : (sources.snapshot settings master).contains p = false)
    (hbib : (sources.snapshot settings master).bibFiles.any (·.same p) = false)
    (hc : sources.Consults settings master p) :
    ((sources.write p "".toUTF8).snapshot settings master).report
      ≠ (sources.snapshot settings master).report := by
  have hcontains : ∀ g, sources.graph master = .ok g → g.contains p = false := by
    intro g hg
    rw [snapshot_eq_snapshotOf hg] at hdoc
    rw [Bool.eq_false_iff, ne_eq, Graph.contains_iff]
    rintro ⟨d, hd, hparts⟩
    exact List.any_eq_false.mp hdoc d hd (Path.same_iff.mpr hparts)
  cases hc with
  | way hmissing =>
      rw [hhas] at hmissing
      cases hmissing
  | inclusion hg hd hi htries =>
      exact h.report_ne_of_inclusion hg (hcontains _ hg) hd hi htries
  | @bibliography g m _ hg hm htries =>
      by_cases hinclusion : ∃ d ∈ g.documents, ∃ i ∈ d.scan.inclusions,
          sources.Tries i.target [master.directory, d.path.directory] ".tex" p
      · obtain ⟨d, hd, i, hi, htries'⟩ := hinclusion
        exact h.report_ne_of_inclusion hg (hcontains g hg) hd hi htries'
      · refine h.report_ne_of_bibliography hhas hg hbib (fun d hd i hi htries' => ?_) hm htries
        exact hinclusion ⟨d, hd, i, hi, htries'⟩

end Elsewhere

end Sources

namespace Session

variable {s : Session} {disk : Disk} {p : Path}

/-- A project source whose save is ignored is unknown to the project. -/
theorem belongs_eq_false (hpolicy : s.settings.reindex = .onSave)
    (hsource : isProjectSource p = true) (hsave : s.shouldReindexOnSave p = false) :
    s.belongs p = false := by
  simpa [shouldReindexOnSave, hpolicy, hsource] using hsave

/-- **Which ignored saves change nothing.**  Let the snapshot of a session be
up to date, and let saving a project source that is not open ask for no
rebuild.  If the build does not look at the path, then a rebuild gives the
same snapshot whatever was written there.  If it does, and there is a master,
then a rebuild after an empty file was written reports something else.  If
there is no master, then at most the reason that is told for it changes. -/
theorem unconsulted_save_changes_nothing (hpolicy : s.settings.reindex = .onSave)
    (hsnapshot : s.snapshot = s.scanned disk) (hmaster : s.master.IsDirect)
    (hconfined : (Sources.mk disk s.buffers).Confined s.settings s.master)
    (hsource : isProjectSource p = true) (hopen : s.isOpen p = false)
    (hp : p.normalize.IsDirect) (hwritable : disk.Writable p.normalize.place)
    (hsave : s.shouldReindexOnSave p = false) :
    (¬ (Sources.mk disk s.buffers).Consults s.settings s.master p.normalize →
      ∀ bytes, s.scanned (disk.put p.normalize.place (.file bytes)) = s.snapshot) ∧
    ((Sources.mk disk s.buffers).has s.master = true →
      (Sources.mk disk s.buffers).Consults s.settings s.master p.normalize →
      ∃ bytes, (s.scanned (disk.put p.normalize.place (.file bytes))).report
        ≠ s.snapshot.report) ∧
    ((Sources.mk disk s.buffers).has s.master = false → ∀ bytes, ∃ reason,
      s.scanned (disk.put p.normalize.place (.file bytes)) = .unread s.master reason) := by
  have hunknown := belongs_eq_false hpolicy hsource hsave
  rw [belongs, Bool.or_eq_false_iff, Bool.or_eq_false_iff] at hunknown
  obtain ⟨⟨hsame, hdoc⟩, hbib⟩ := hunknown
  have hne : s.master.place ≠ p.normalize.place := by
    intro hplace
    rw [Path.same_iff.mpr ((hp.same_iff_place hmaster).mpr hplace.symm)] at hsame
    cases hsame
  have h : (Sources.mk disk s.buffers).Elsewhere s.settings s.master p.normalize :=
    ⟨⟨hp, Path.normalize_normalize p⟩, hwritable, by simpa [isOpen] using hopen, hmaster, hne,
      hconfined⟩
  rw [hsnapshot] at hdoc hbib ⊢
  refine ⟨fun hnot bytes => h.snapshot_eq hnot, fun hhas hc => ?_, fun hhas bytes => ?_⟩
  · exact ⟨"".toUTF8, h.report_ne hhas hdoc hbib hc⟩
  · obtain ⟨reason, hread⟩ := Sources.exists_error_of_has_false (h.has_master.trans hhas)
    exact ⟨reason, Sources.snapshot_of_read_error hread⟩

/-- A session whose snapshot is up to date, with nothing open. -/
def indexed (disk : Disk) (master : Path) : Session where
  settings := {}
  start := master
  master
  buffers := []
  snapshot := (Sources.mk disk []).snapshot {} master
  generation := 1
  built := true

/-- A project of which one document is missing. -/
def halfDisk : Disk :=
  ⟨[(["m.tex"], .file "\\input{a}\n\\input{b}".toUTF8), (["a.tex"], .file "".toUTF8)], [], "/"⟩

theorem half_confined : (Sources.mk halfDisk []).Confined {} ⟨"/m.tex"⟩ where
  inclusions := by
    intro g hg
    obtain rfl := Except.ok.inj hg
    decide
  bibliographies := by
    intro g hg
    obtain rfl := Except.ok.inj hg
    decide

theorem half_writable {n : String} (hfits : Disk.Fits [n]) (hfree : halfDisk.node? [n] = none) :
    halfDisk.Writable [n] where
  root := by decide
  fits := hfits
  free := by simp [hfree]
  below := by
    intro above habove hne bytes hfile
    -- above a place at the root there is only the root
    rcases above with - | ⟨m, rest⟩
    · cases hfile
    · obtain ⟨rfl, hrest⟩ := List.cons_prefix_cons.mp habove
      obtain rfl := List.prefix_nil.mp hrest
      exact hne rfl

theorem half_not_consults : ¬ (Sources.mk halfDisk []).Consults {} ⟨"/m.tex"⟩ ⟨"/c.tex"⟩ := by
  have hnone : ∀ g, (Sources.mk halfDisk []).graph ⟨"/m.tex"⟩ = .ok g →
      ∀ d ∈ g.documents, ∀ i ∈ d.scan.inclusions,
        Path.mk "/c.tex" ∉
          Path.candidates i.target [(Path.mk "/m.tex").directory, d.path.directory] ".tex" := by
    intro g hg
    obtain rfl := Except.ok.inj hg
    decide
  intro hc
  cases hc with
  | inclusion hg hd hi htries => exact hnone _ hg _ hd _ hi htries.mem
  | bibliography hg hm htries =>
      obtain rfl := Except.ok.inj hg
      cases hm
  | way hmissing => cases hmissing

/-- The missing document is looked for in vain. -/
theorem half_consults : (Sources.mk halfDisk []).Consults {} ⟨"/m.tex"⟩ ⟨"/b.tex"⟩ := by
  have htries : (Sources.mk halfDisk []).Tries "b" [⟨"/"⟩, ⟨"/"⟩] ".tex" ⟨"/b.tex"⟩ :=
    ⟨[], [⟨"/b.tex"⟩], by decide, by decide, by decide⟩
  exact .inclusion (d := ⟨⟨"/m.tex"⟩, none, scan "\\input{a}\n\\input{b}"⟩)
    (i := ⟨.inputFile, "b", 1⟩) rfl (by decide) (by decide) htries

theorem unconsulted_save_changes_nothing_half :
    (indexed halfDisk ⟨"/m.tex"⟩).shouldReindexOnSave ⟨"/c.tex"⟩ = false ∧
    (∀ bytes, (indexed halfDisk ⟨"/m.tex"⟩).scanned (halfDisk.put ["c.tex"] (.file bytes))
      = (indexed halfDisk ⟨"/m.tex"⟩).snapshot) ∧
    (indexed halfDisk ⟨"/m.tex"⟩).shouldReindexOnSave ⟨"/b.tex"⟩ = false ∧
    ∃ bytes, ((indexed halfDisk ⟨"/m.tex"⟩).scanned (halfDisk.put ["b.tex"] (.file bytes))).report
      ≠ (indexed halfDisk ⟨"/m.tex"⟩).snapshot.report := by
  have hc : (indexed halfDisk ⟨"/m.tex"⟩).shouldReindexOnSave ⟨"/c.tex"⟩ = false := by decide
  have hb : (indexed halfDisk ⟨"/m.tex"⟩).shouldReindexOnSave ⟨"/b.tex"⟩ = false := by decide
  have hwritec := @half_writable "c.tex" ⟨by decide, by decide, by decide⟩ (by decide)
  have hwriteb := @half_writable "b.tex" ⟨by decide, by decide, by decide⟩ (by decide)
  obtain ⟨hkept, -, -⟩ := @unconsulted_save_changes_nothing (indexed halfDisk ⟨"/m.tex"⟩) halfDisk
    ⟨"/c.tex"⟩ rfl rfl (by decide) half_confined (by decide) (by decide) (by decide) hwritec hc
  obtain ⟨-, hchanged, -⟩ := @unconsulted_save_changes_nothing (indexed halfDisk ⟨"/m.tex"⟩) halfDisk
    ⟨"/b.tex"⟩ rfl rfl (by decide) half_confined (by decide) (by decide) (by decide) hwriteb hb
  exact ⟨hc, hkept half_not_consults, hb, hchanged (by decide) half_consults⟩

/-- Saving a file is ignored, and yet a rebuild reports something else. -/
def Overlooks (disk : Disk) (master p : Path) (bytes : ByteArray) : Prop :=
  isProjectSource p = true ∧ (indexed disk master).isOpen p = false ∧
    (indexed disk master).shouldReindexOnSave p = false ∧
    ((indexed disk master).scanned (disk.put p.normalize.place (.file bytes))).report
      ≠ (indexed disk master).snapshot.report

instance (disk : Disk) (master p : Path) (bytes : ByteArray) :
    Decidable (Overlooks disk master p bytes) :=
  inferInstanceAs (Decidable (_ ∧ _))

/-- What is overlooked: a document that was missing, one that could not be
decoded, one that shadows another, a bibliography that was missing, paths
above the root for the file, for an inclusion and for the master, and a file
on the way to a master that is missing. -/
theorem ignored_save_changes_report :
    Overlooks halfDisk ⟨"/m.tex"⟩ ⟨"/b.tex"⟩ "".toUTF8 ∧
    Overlooks (halfDisk.put ["b.tex"] (.file ⟨#[255]⟩)) ⟨"/m.tex"⟩ ⟨"/b.tex"⟩ "".toUTF8 ∧
    Overlooks ⟨[(["m.tex"], .file "\\input{s/a}".toUTF8), (["s", "a.tex"], .file "\\input{b}".toUTF8),
      (["s", "b.tex"], .file "".toUTF8)], [], "/"⟩ ⟨"/m.tex"⟩ ⟨"/b.tex"⟩ "".toUTF8 ∧
    Overlooks ⟨[(["m.tex"], .file "\\bibliography{r}".toUTF8)], [], "/"⟩ ⟨"/m.tex"⟩ ⟨"/r.bib"⟩
      "".toUTF8 ∧
    Overlooks halfDisk ⟨"/m.tex"⟩ ⟨"/../m.tex"⟩ "".toUTF8 ∧
    Overlooks ⟨[(["m.tex"], .file "\\input{/../a}".toUTF8), (["a.tex"], .file "".toUTF8)], [], "/"⟩
      ⟨"/m.tex"⟩ ⟨"/a.tex"⟩ "\\input{b}".toUTF8 ∧
    Overlooks halfDisk ⟨"/../m.tex"⟩ ⟨"/m.tex"⟩ "".toUTF8 ∧
    Overlooks ⟨[], [], "/"⟩ ⟨"/a.tex/m.tex"⟩ ⟨"/a.tex"⟩ "".toUTF8 := by
  decide +kernel

end Session

end LatexIndex
