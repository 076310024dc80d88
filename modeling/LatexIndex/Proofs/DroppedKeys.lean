/-
LatexIndex/Proofs/DroppedKeys.lean

What an index forgets when a bibliography is lost.

A bibliography is lost when its file is removed, or when no document names it
any longer.  Removing the file leaves the graph as it is, since documents are
found under other names than bibliographies: no path that ends as that of a
document leads to the file of a bibliography (`ReadsAt.not_tex`).  A mention of
another file means the same as before, because the files that were tried first
for it are missing still.  So a key is lost exactly if the lost file has it and
nothing else defines it (`drops_of_kept`).
-/
import LatexIndex.Proofs.Bibliographies
import LatexIndex.Proofs.Removing

namespace LatexIndex

open Markup Listing

/-! ### Names and places -/

/-- What is found at a path has the file name of the path. -/
theorem Disk.getLast?_of_lookUp {disk : Disk} {p : Path} {place : Place} {node : Node}
    {name : String} (hname : p.fileName? = some name) (h : disk.lookUp p = .ok (place, node)) :
    place.getLast? = some name := by
  obtain ⟨init, hinit⟩ : ∃ init, p.parts = init ++ [.name name] := by
    unfold Path.fileName? at hname
    split at hname
    · next text hlast =>
        obtain rfl := Option.some.inj hname
        exact List.getLast?_eq_some_iff.mp hlast
    · cases hname
  rw [(walk_of_lookUp h).1, hinit, walk_append, walk_cons, walk_nil, walkPart,
    List.getLast?_concat]

namespace Sources

variable {sources after : Sources} {settings : Settings} {master p q : Path} {place : Place}
  {g : Graph} {m : Mention} {old : ByteArray}

theorem ReadsAt.fileName?_eq (hp : sources.ReadsAt place p) (hq : sources.ReadsAt place q)
    {a b : String} (ha : p.fileName? = some a) (hb : q.fileName? = some b) : a = b := by
  obtain ⟨-, bytes, hlook⟩ := hp
  obtain ⟨-, bytes', hlook'⟩ := hq
  exact Option.some.inj ((Disk.getLast?_of_lookUp ha hlook).symm.trans
    (Disk.getLast?_of_lookUp hb hlook'))

/-- The file of a bibliography is not read for a document. -/
theorem ReadsAt.not_tex (hp : sources.ReadsAt place p) (hbib : p.HasEnding ".bib")
    (htex : q.HasEnding ".tex") : ¬ sources.ReadsAt place q := by
  intro hq
  obtain ⟨a, ha, hending⟩ := hbib
  obtain ⟨b, hb, hdocument⟩ := htex
  obtain rfl := hp.fileName?_eq hq ha hb
  exact Path.HasEnding.not_bib ⟨a, hb, hdocument⟩ ⟨a, hb, hending⟩

/-- Two paths to one file have the same keys. -/
theorem ReadsAt.keysAt_eq (hp : sources.ReadsAt place p) (hq : sources.ReadsAt place q) :
    sources.keysAt q = sources.keysAt p := by
  have hread : sources.read q = sources.read p := by
    obtain ⟨hbuffer, bytes, hlook⟩ := hp
    obtain ⟨hbuffer', bytes', hlook'⟩ := hq
    obtain rfl : bytes' = bytes := by
      have hnode := (Disk.walk_of_lookUp hlook').2.symm.trans (Disk.walk_of_lookUp hlook).2
      injection hnode with hnode
      injection hnode
    rw [read, read, hbuffer, hbuffer', Disk.read, Disk.read, Disk.readBytes, Disk.readBytes, hlook,
      hlook']
  rw [keysAt, keysAt, hread]
  rcases sources.read p with reason | ⟨text, revision⟩
  · rfl
  · exact Bib.map_key_entriesFrom p q [] _

/-! ### The graph without a bibliography -/

theorem has_without_eq (h : sources.disk.node? place = some (.file old))
    (hworking : ¬ place <+: sources.disk.workingDirectory) (hq : ¬ sources.ReadsAt place q) :
    (sources.without place).has q = sources.has q :=
  Bool.eq_iff_iff.mpr ((has_without h hworking).trans (and_iff_left hq))

/-- Removing a bibliography does not change the graph, as long as the master
is there. -/
theorem graph_without (hworking : ¬ place <+: sources.disk.workingDirectory)
    (hreads : sources.ReadsAt place p) (hbib : p.HasEnding ".bib") {g : Graph}
    (hg : (sources.without place).graph master = .ok g) : sources.graph master = .ok g := by
  obtain ⟨old, h⟩ := hreads.node?
  obtain ⟨d, hd⟩ := exists_load_of_graph hg
  rw [← hg]
  symm
  apply Graph.graph_congr
  · rw [load, load, read_without h hworking (has_of_load hd)]
  · intro g' _ d _ i _
    have hsame : ∀ c ∈ Path.candidates i.target [master.directory, d.path.directory] ".tex",
        (sources.without place).has c = sources.has c := by
      intro c hc
      have htex := Path.hasEnding_of_mem_candidates Path.isEnding_tex hc
      exact has_without_eq h hworking (hreads.not_tex hbib htex)
    refine ⟨List.find?_congr hsame, fun target htarget => read_without h hworking ?_⟩
    rw [hsame target (List.mem_of_find?_eq_some htarget)]
    exact (resolve?_eq_some htarget).1

theorem searchPaths_congr (h : after.disk.home = sources.disk.home) (directory : Path) :
    after.searchPaths settings directory = sources.searchPaths settings directory := by
  simp only [searchPaths, Disk.expandHome, h]

/-- A mention of another file means the same as before. -/
theorem bibliography?_without (h : sources.disk.node? place = some (.file old))
    (hworking : ¬ place <+: sources.disk.workingDirectory)
    (hr : sources.bibliography? settings master.directory m = some q)
    (hq : ¬ sources.ReadsAt place q) :
    (sources.without place).bibliography? settings master.directory m = some q := by
  have hhome : (sources.without place).disk.home = sources.disk.home := by
    rw [without, Disk.remove, h]
  rw [bibliography?, searchPaths_congr hhome]
  rw [bibliography?] at hr
  rw [resolve?, List.find?_eq_some_iff_append] at hr ⊢
  obtain ⟨hhas, before, rest, heq, hmissing⟩ := hr
  refine ⟨(has_without h hworking).mpr ⟨hhas, hq⟩, before, rest, heq, fun c hc => ?_⟩
  -- what was missing before is missing still
  rw [Bool.not_eq_true', ← Bool.not_eq_true, has_without h hworking]
  rintro ⟨hc', -⟩
  exact absurd hc' (by simpa using hmissing c hc)

/-! ### Lost keys -/

/-- From one state of the sources to another, the bibliography at a path is lost:
the index no longer lists it, and the keys that the index no longer knows are
those of the bibliography that nothing else defines. -/
structure Drops (sources after : Sources) (settings : Settings) (master p : Path) : Prop where
  gone : p ∉ (after.snapshot settings master).bibFiles
  keys : ∀ key, (key ∈ (sources.snapshot settings master).citationKeys ∧
      key ∉ (after.snapshot settings master).citationKeys) ↔
    key ∈ sources.keysAt p ∧
      (∀ q ∈ (after.snapshot settings master).bibFiles, key ∉ after.keysAt q) ∧
      key ∉ (after.snapshot settings master).itemKeys

/-- A bibliography is lost if it is no longer listed and all keys but its own are
kept. -/
theorem drops_of_kept (hp : p ∈ (sources.snapshot settings master).bibFiles)
    (hgone : p ∉ (after.snapshot settings master).bibFiles)
    (hkept : ∀ key ∈ (sources.snapshot settings master).citationKeys,
      key ∉ sources.keysAt p → key ∈ (after.snapshot settings master).citationKeys) :
    sources.Drops after settings master p := by
  refine ⟨hgone, fun key => ?_⟩
  have hlost : key ∉ (after.snapshot settings master).citationKeys ↔
      (∀ q ∈ (after.snapshot settings master).bibFiles, key ∉ after.keysAt q) ∧
        key ∉ (after.snapshot settings master).itemKeys := by
    rw [mem_citationKeys_iff_bibFiles]
    simp
  rw [hlost]
  refine and_congr_left fun hnew => ?_
  constructor
  · intro hkey
    by_contra hother
    exact hlost.mpr hnew (hkept key hkey hother)
  · intro hkey
    exact mem_citationKeys_iff_bibFiles.mpr (.inl ⟨p, hp, hkey⟩)

/-- **Removing the file of a bibliography** loses it. -/
theorem drops_without (hp : p ∈ (sources.snapshot settings master).bibFiles)
    (hreads : sources.ReadsAt place p) (hworking : ¬ place <+: sources.disk.workingDirectory)
    (hbuilt : ((sources.without place).snapshot settings master).isBuilt = true) :
    sources.Drops (sources.without place) settings master p := by
  obtain ⟨old, h⟩ := hreads.node?
  obtain ⟨⟨m, hm, hmp⟩, -⟩ := mem_bibFiles_iff.mp hp
  obtain ⟨g, hg, hafter⟩ : ∃ g, (sources.without place).graph master = .ok g ∧
      (sources.without place).snapshot settings master
        = (sources.without place).snapshotOf settings master g := by
    rcases (sources.without place).snapshot_cases settings master with hs | ⟨failure, -, hs⟩
    · exact hs
    · rw [hs] at hbuilt
      cases hbuilt
  have hbefore : sources.snapshot settings master = sources.snapshotOf settings master g :=
    snapshot_eq_snapshotOf (graph_without hworking hreads (hasEnding_of_bibliography? hmp) hg)
  refine drops_of_kept hp ?_ ?_
  · rw [mem_bibFiles_iff]
    rintro ⟨⟨m', -, hm'⟩, -⟩
    exact ((has_without h hworking).mp (resolve?_eq_some hm').1).2 hreads
  · intro key hkey hother
    rw [mem_citationKeys_iff] at hkey ⊢
    rw [hafter, mentions_snapshotOf, itemKeys_snapshotOf]
    rw [hbefore, mentions_snapshotOf, itemKeys_snapshotOf] at hkey
    refine hkey.imp_left ?_
    rintro ⟨m', hm', q, hq, hkey⟩
    have hnot : ¬ sources.ReadsAt place q := fun hq' => hother (hreads.keysAt_eq hq' ▸ hkey)
    have hq' := bibliography?_without h hworking hq hnot
    refine ⟨m', hm', q, hq', ?_⟩
    rwa [keysAt_congr (read_without h hworking (resolve?_eq_some hq').1)]

/-- From one state of the sources to another, the documents no longer name the
bibliography at a path.  They name all others and define all items as before, and
there are the same bibliographies to be read. -/
structure Unmentions (sources after : Sources) (settings : Settings) (master p : Path) : Prop where
  files : ∀ q : Path, q.HasEnding ".bib" →
    after.has q = sources.has q ∧ after.read q = sources.read q
  home : after.disk.home = sources.disk.home
  mentions : ∀ document name,
    (∃ m ∈ (after.snapshot settings master).mentions,
      m.document = document ∧ m.occurrence.key = name) ↔
    ∃ m ∈ (sources.snapshot settings master).mentions,
      m.document = document ∧ m.occurrence.key = name ∧
        sources.bibliography? settings master.directory m ≠ some p
  items : ∀ key, key ∈ (after.snapshot settings master).itemKeys ↔
    key ∈ (sources.snapshot settings master).itemKeys

theorem Unmentions.bibliography?_eq (h : sources.Unmentions after settings master p)
    {m m' : Mention} (hdocument : m'.document = m.document)
    (hkey : m'.occurrence.key = m.occurrence.key) :
    after.bibliography? settings master.directory m'
      = sources.bibliography? settings master.directory m := by
  rw [bibliography?, bibliography?, searchPaths_congr h.home, hdocument, hkey]
  exact List.find?_congr fun c hc =>
    (h.files c (Path.hasEnding_of_mem_candidates Path.isEnding_bib hc)).1

/-- **Naming a bibliography no longer** loses it. -/
theorem Unmentions.drops (h : sources.Unmentions after settings master p)
    (hp : p ∈ (sources.snapshot settings master).bibFiles) :
    sources.Drops after settings master p := by
  refine drops_of_kept hp ?_ ?_
  · rw [mem_bibFiles_iff]
    rintro ⟨⟨m', hm', hr⟩, -⟩
    obtain ⟨m, -, hdocument, hkey, hne⟩ := (h.mentions _ _).mp ⟨m', hm', rfl, rfl⟩
    exact hne ((h.bibliography?_eq hdocument.symm hkey.symm).symm.trans hr)
  · intro key hkey hother
    rw [mem_citationKeys_iff] at hkey ⊢
    rw [h.items]
    refine hkey.imp_left ?_
    rintro ⟨m, hm, q, hq, hkey⟩
    have hne : sources.bibliography? settings master.directory m ≠ some p := by
      rw [hq]
      rintro ⟨⟩
      exact hother hkey
    obtain ⟨m', hm', hdocument, hname⟩ := (h.mentions _ _).mpr ⟨m, hm, rfl, rfl, hne⟩
    refine ⟨m', hm', q, (h.bibliography?_eq hdocument hname).trans hq, ?_⟩
    rwa [keysAt_congr (h.files q (hasEnding_of_bibliography? hq)).2]

/-! ### The bibliographies of an index -/

/-- **The bibliographies of an index.**  A mention stands for the first file that
is there in the directory of the master, in that of the document and in the
search paths, in this order.

The keys of the index are those in the files that mentions stand for, as far as
these can be read, and those of the items of the documents.  It lists the files
that can be read, each once and in the order of first mention.  Among its warnings
about what cannot be read there is one for each mention that stands for no file,
at its document and line, and one for each file that is there and cannot be read;
none of the others is like these.

When a bibliography is lost, because its file is removed or because no document
names it any longer, exactly those of its keys are lost that nothing else
defines. -/
theorem bibliographies_of_snapshot (sources : Sources) (settings : Settings) (master : Path) :
    let s := sources.snapshot settings master
    let file := fun m : Mention =>
      (Path.candidates m.occurrence.key (master.directory :: m.document.directory ::
        sources.searchPaths settings master.directory) ".bib").find? sources.has
    let files := firsts Path.parts (s.mentions.filterMap file)
    let notFound : List Warning := (s.mentions.filter fun m => (file m).isNone).map fun m =>
      ⟨.unreadable, m.document, some m.occurrence.line,
        s!"bibliography `{m.occurrence.key}` not found"⟩
    (∀ key, key ∈ s.citationKeys ↔
      (∃ m ∈ s.mentions, ∃ p, file m = some p ∧ key ∈ sources.keysAt p) ∨ key ∈ s.itemKeys) ∧
    s.bibFiles = files.filter (fun p => (sources.read p).isOk) ∧
    (s.bibFiles.map Path.parts).Nodup ∧
    (∃ others, s.warnings.filter (·.kind = .unreadable) =
        others ++ notFound ++ files.filterMap sources.unreadable? ∧
      ∀ w ∈ others, w ∉ notFound ∧ w ∉ files.filterMap sources.unreadable?) ∧
    ∀ p ∈ s.bibFiles,
      (∀ place, sources.ReadsAt place p → ¬ place <+: sources.disk.workingDirectory →
        ((sources.without place).snapshot settings master).isBuilt = true →
        sources.Drops (sources.without place) settings master p) ∧
      ∀ after, sources.Unmentions after settings master p →
        sources.Drops after settings master p := by
  intro s file files notFound
  have hfiles : s.bibFiles = files.filter fun p => (sources.read p).isOk :=
    bibFiles_snapshot sources settings master
  refine ⟨fun key => mem_citationKeys_iff, hfiles, ?_,
    unreadable_snapshot sources settings master, fun p hp => ⟨?_, ?_⟩⟩
  · rw [hfiles]
    exact (nodup_map_firsts Path.parts _).sublist (List.filter_sublist.map Path.parts)
  · intro place hreads hworking hbuilt
    exact drops_without hp hreads hworking hbuilt
  · intro after h
    exact h.drops hp

/-- A project in which two documents name one bibliography.  Another file of
that name lies beside the second document, and the master also names a file that
is missing and one that is not UTF-8. -/
def shadowedBibliography : Sources :=
  ⟨⟨[(["m.tex"], .file "\\input{s/a}\n\\bibliography{x,y,z,b}\n\\bibitem{k1}".toUTF8),
      (["s", "a.tex"], .file "\\bibliography{x}".toUTF8),
      (["x.bib"], .file "@book{k1}@book{k2}@book{k3}".toUTF8),
      (["s", "x.bib"], .file "@book{k2}".toUTF8),
      (["y.bib"], .file "@book{k4}".toUTF8),
      (["b.bib"], .file ⟨#[255]⟩)], [], "/"⟩, []⟩

/-- The same project while its documents are edited to name that bibliography no
longer. -/
def renamedBibliography : Sources :=
  { shadowedBibliography with
    buffers := [(⟨"/m.tex"⟩, ⟨"\\input{s/a}\n\\bibliography{y,z,b}\n\\bibitem{k1}", 1⟩),
      (⟨"/s/a.tex"⟩, ⟨"", 1⟩)] }

theorem shadowed_mem :
    Path.mk "/x.bib" ∈ (shadowedBibliography.snapshot {} ⟨"/m.tex"⟩).bibFiles := by
  have hmention : (shadowedBibliography.snapshot {} ⟨"/m.tex"⟩).mentions.any (fun m =>
      shadowedBibliography.bibliography? {} ⟨"/"⟩ m = some ⟨"/x.bib"⟩) = true := by
    decide +kernel
  obtain ⟨m, hm, hfile⟩ := List.any_eq_true.mp hmention
  exact mem_bibFiles_iff.mpr ⟨⟨m, hm, of_decide_eq_true hfile⟩, by decide +kernel⟩

theorem shadowed_reads : shadowedBibliography.ReadsAt ["x.bib"] ⟨"/x.bib"⟩ :=
  ⟨rfl, _, rfl⟩

theorem shadowed_built :
    ((shadowedBibliography.without ["x.bib"]).snapshot {} ⟨"/m.tex"⟩).isBuilt = true := by
  decide +kernel

theorem find?_renamed {q : Path} (hq : q.HasEnding ".bib") :
    renamedBibliography.buffers.find? q = none := by
  have hm : (Path.mk "/m.tex").HasEnding ".tex" := ⟨"m.tex", by decide, by decide⟩
  have ha : (Path.mk "/s/a.tex").HasEnding ".tex" := ⟨"a.tex", by decide, by decide⟩
  rw [Buffers.find?, Option.map_eq_none_iff, List.find?_eq_none]
  rintro e he hsame
  have hbib := hq.congr (Path.same_iff.mp hsame).symm
  rcases List.mem_pair.mp he with rfl | rfl
  · exact hm.not_bib hbib
  · exact ha.not_bib hbib

theorem shadowed_unmentions :
    shadowedBibliography.Unmentions renamedBibliography {} ⟨"/m.tex"⟩ ⟨"/x.bib"⟩ where
  files := by
    intro q hq
    rw [has, read, find?_renamed hq]
    exact ⟨rfl, rfl⟩
  home := rfl
  mentions := by
    have hmentions : (renamedBibliography.snapshot {} ⟨"/m.tex"⟩).mentions =
        (shadowedBibliography.snapshot {} ⟨"/m.tex"⟩).mentions.filter fun m =>
          shadowedBibliography.bibliography? {} ⟨"/"⟩ m ≠ some ⟨"/x.bib"⟩ := by
      decide +kernel
    intro document name
    rw [hmentions]
    simp only [List.mem_filter, decide_eq_true_eq]
    constructor
    · rintro ⟨m, ⟨hm, hne⟩, hdocument, hname⟩
      exact ⟨m, hm, hdocument, hname, hne⟩
    · rintro ⟨m, hm, hdocument, hname, hne⟩
      exact ⟨m, ⟨hm, hne⟩, hdocument, hname⟩
  items := by
    have hitems : (renamedBibliography.snapshot {} ⟨"/m.tex"⟩).itemKeys =
        (shadowedBibliography.snapshot {} ⟨"/m.tex"⟩).itemKeys := by
      decide +kernel
    intro key
    rw [hitems]

theorem bibliographies_of_snapshot_shadowed :
    Path.mk "/x.bib" ∈ (shadowedBibliography.snapshot {} ⟨"/m.tex"⟩).bibFiles ∧
    shadowedBibliography.ReadsAt ["x.bib"] ⟨"/x.bib"⟩ ∧
    ¬ ["x.bib"] <+: shadowedBibliography.disk.workingDirectory ∧
    ((shadowedBibliography.without ["x.bib"]).snapshot {} ⟨"/m.tex"⟩).isBuilt = true ∧
    shadowedBibliography.Unmentions renamedBibliography {} ⟨"/m.tex"⟩ ⟨"/x.bib"⟩ ∧
    shadowedBibliography.Drops (shadowedBibliography.without ["x.bib"]) {} ⟨"/m.tex"⟩
      ⟨"/x.bib"⟩ ∧
    shadowedBibliography.Drops renamedBibliography {} ⟨"/m.tex"⟩ ⟨"/x.bib"⟩ := by
  have hworking : ¬ ["x.bib"] <+: shadowedBibliography.disk.workingDirectory := by decide
  obtain ⟨-, -, -, -, hlost⟩ := bibliographies_of_snapshot shadowedBibliography {} ⟨"/m.tex"⟩
  obtain ⟨hremoved, hunmentioned⟩ := hlost _ shadowed_mem
  exact ⟨shadowed_mem, shadowed_reads, hworking, shadowed_built, shadowed_unmentions,
    hremoved _ shadowed_reads hworking shadowed_built, hunmentioned _ shadowed_unmentions⟩

end Sources

end LatexIndex
