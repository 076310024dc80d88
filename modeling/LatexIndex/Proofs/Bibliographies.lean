/-
LatexIndex/Proofs/Bibliographies.lean

The bibliographies of an index.

Four lists stand one behind the other: the mentions of the documents, the files
that they stand for, those of these files that can be read, and the keys in
them.  A mention that stands for no file and a file that cannot be read drop out
with a warning each.  The lemmas here say for an index as a whole what is in
each list: its keys (`mem_citationKeys_iff`), its files (`bibFiles_snapshot`)
and its warnings about what cannot be read (`unreadable_snapshot`).
-/
import LatexIndex.Proofs.Dependence
import LatexIndex.Proofs.LabelDefinitions

namespace LatexIndex

open Markup Listing

/-! ### The keys of a bibliography -/

namespace Bib

variable {path other : Path} {seen : List String} {key : String}

/-- A block comes to the same under every path, which is only recorded. -/
theorem Block.read_path (path other : Path) (seen : List String) (block : Block) :
    block.read other seen
      = (block.read path seen).map (·.map fun e => { e with path := other }) := by
  unfold Block.read
  split
  · rfl
  · split
    · rfl
    · dsimp only
      split
      · rfl
      · split <;> rfl

theorem map_key_entriesFrom (path other : Path) (seen : List String) (blocks : List Block) :
    (entriesFrom other seen blocks).1.map Entry.key
      = (entriesFrom path seen blocks).1.map Entry.key := by
  induction blocks generalizing seen with
  | nil => rfl
  | cons block more ih =>
      rw [entriesFrom, entriesFrom, Block.read_path path other]
      rcases block.read path seen with - | fault | e
      · exact ih seen
      · exact ih seen
      · exact congrArg (e.key :: ·) (ih (e.key :: seen))

/-- What is wrong inside of a bibliography is never that it cannot be read. -/
theorem kind_entriesFrom (path : Path) (seen : List String) (blocks : List Block) :
    ∀ w ∈ (entriesFrom path seen blocks).2, w.kind ≠ .unreadable := by
  induction blocks generalizing seen with
  | nil => simp [entriesFrom]
  | cons block more ih =>
      rw [entriesFrom]
      split
      · exact ih seen
      · next e _ => exact ih (e.key :: seen)
      · next fault _ =>
          refine List.forall_mem_cons.mpr ⟨?_, ih seen⟩
          cases fault <;> exact WarningKind.noConfusion

end Bib

/-- A document defines each key of its items, the first time it comes. -/
theorem mem_keys_bibitemsFrom (path : Path) (seen : List String) (items : List Occurrence)
    (key : String) :
    key ∈ (bibitemsFrom path seen items).1.map Bib.Entry.key ↔
      key ∈ items.map Occurrence.key ∧ key ∉ seen := by
  induction items generalizing seen with
  | nil => simp [bibitemsFrom]
  | cons item more ih =>
      rw [bibitemsFrom, List.map_cons, List.mem_cons]
      split
      · next hseen =>
          rw [show key ∈ List.map Bib.Entry.key _ ↔ _ from ih seen]
          constructor
          · rintro ⟨hmem, hnew⟩
            exact ⟨.inr hmem, hnew⟩
          · rintro ⟨rfl | hmem, hnew⟩
            · exact absurd hseen hnew
            · exact ⟨hmem, hnew⟩
      · next hfirst =>
          rw [List.map_cons, List.mem_cons,
            show key ∈ List.map Bib.Entry.key _ ↔ _ from ih (item.key :: seen), List.mem_cons]
          by_cases hkey : key = item.key
          · subst hkey
            simp [hfirst]
          · simp [hkey]

theorem kind_bibitemsFrom (path : Path) (seen : List String) (items : List Occurrence) :
    ∀ w ∈ (bibitemsFrom path seen items).2, w.kind ≠ .unreadable := by
  induction items generalizing seen with
  | nil => simp [bibitemsFrom]
  | cons item more ih =>
      rw [bibitemsFrom]
      split
      · exact List.forall_mem_cons.mpr ⟨WarningKind.noConfusion, ih seen⟩
      · exact ih (item.key :: seen)

namespace Sources

variable {sources other : Sources} {settings : Settings} {master p q : Path} {g : Graph}
  {key : String}

/-- The keys in the bibliography at a path, none if it cannot be read. -/
def keysAt (sources : Sources) (p : Path) : List String :=
  match sources.read p with
  | .ok (text, _) => (Bib.read text p).1.map Bib.Entry.key
  | .error _ => []

/-- The warning about a bibliography that is there and cannot be read. -/
def unreadable? (sources : Sources) (p : Path) : Option Warning :=
  match sources.read p with
  | .ok _ => none
  | .error reason => some ⟨.unreadable, p, none, s!"cannot read {p.text}: {reason.message}"⟩

theorem keysAt_congr (h : other.read p = sources.read p) : other.keysAt p = sources.keysAt p := by
  rw [keysAt, keysAt, h]

theorem isSome_bibFile? (sources : Sources) (p : Path) :
    (sources.bibFile? p).isSome = (sources.read p).isOk := by
  rw [bibFile?, bibSource, readBibliography]
  rcases sources.read p with reason | ⟨text, revision⟩ <;> rfl

/-- The keys at a path are those of the file there. -/
theorem mem_keysAt_iff :
    key ∈ sources.keysAt p ↔
      ∃ file, sources.bibFile? p = some file ∧ key ∈ file.entries.map Bib.Entry.key := by
  rw [keysAt, bibFile?, bibSource, readBibliography]
  rcases sources.read p with reason | ⟨text, revision⟩ <;> simp

end Sources

theorem Document.mem_bibitems_iff {d : Document} {key : String} :
    (∃ source ∈ d.bibitems?, key ∈ source.1.entries.map Bib.Entry.key) ↔
      key ∈ d.scan.bibitems.map Occurrence.key := by
  have hkeys := mem_keys_bibitemsFrom d.path [] d.scan.bibitems key
  rw [bibitems?]
  split
  · next hempty => simp [List.isEmpty_iff.mp hempty]
  · simpa using hkeys

/-! ### The keys and the files of an index -/

namespace Snapshot

/-- The citation keys that an index knows. -/
def citationKeys (s : Snapshot) : List String :=
  s.bibs.entries.map Bib.Entry.key

/-- The keys of the items that the documents define themselves. -/
def itemKeys (s : Snapshot) : List String :=
  s.documents.flatMap fun d => d.scan.bibitems.map Occurrence.key

/-- The bibliographies that the documents name, in order. -/
def mentions (s : Snapshot) : List Mention :=
  s.documents.flatMap fun d => d.scan.bibliographies.map (Mention.mk d.path)

end Snapshot

namespace Sources

variable {sources other : Sources} {settings : Settings} {master p q : Path} {g : Graph}
  {key : String}

theorem mentions_snapshotOf (sources : Sources) (settings : Settings) (master : Path) (g : Graph) :
    (sources.snapshotOf settings master g).mentions = g.mentions :=
  rfl

theorem itemKeys_snapshotOf (sources : Sources) (settings : Settings) (master : Path) (g : Graph) :
    (sources.snapshotOf settings master g).itemKeys
      = g.documents.flatMap fun d => d.scan.bibitems.map Occurrence.key :=
  rfl

/-- An index is that of a graph, or there is nothing in it but a warning. -/
theorem snapshot_cases (sources : Sources) (settings : Settings) (master : Path) :
    (∃ g, sources.graph master = .ok g ∧
      sources.snapshot settings master = sources.snapshotOf settings master g) ∨
    ∃ failure, sources.graph master = .error failure ∧ sources.snapshot settings master
      = { Snapshot.empty master with warnings := [failure.toWarning] } := by
  rw [snapshot]
  rcases hg : sources.graph master with failure | g
  · exact .inr ⟨failure, rfl, rfl⟩
  · exact .inl ⟨g, rfl, rfl⟩

theorem bibliographies_eq_firsts (sources : Sources) (settings : Settings) (directory : Path)
    (g : Graph) :
    sources.bibliographies settings directory g =
      firsts Path.parts (g.mentions.filterMap (sources.bibliography? settings directory)) := by
  rw [bibliographies, distinct_eq_firsts @Path.same_iff]

/-- The files that were read are listed by the paths where they are. -/
theorem map_path_filterMap_bibFile? (sources : Sources) (paths : List Path) :
    (paths.filterMap sources.bibFile?).map (·.path)
      = paths.filter fun p => (sources.read p).isOk := by
  rw [List.map_filterMap, ← List.filterMap_eq_filter]
  refine List.filterMap_congr fun p _ => ?_
  simp only [Option.guard, ← isSome_bibFile?]
  rcases hfile : sources.bibFile? p with - | file
  · rfl
  · simp [(bibFile?_eq_some hfile).1]

theorem mem_keys_bibliographies :
    key ∈ (((sources.bibliographies settings master.directory g).filterMap
        sources.bibFile?).flatMap (·.entries)).map Bib.Entry.key ↔
      ∃ m ∈ g.mentions, ∃ p, sources.bibliography? settings master.directory m = some p ∧
        key ∈ sources.keysAt p := by
  simp only [List.map_flatMap, List.mem_flatMap, List.mem_filterMap, mem_keysAt_iff,
    mem_bibliographies_iff]
  constructor
  · rintro ⟨file, ⟨p, ⟨m, hm, hp⟩, hfile⟩, hkey⟩
    exact ⟨m, hm, p, hp, file, hfile, hkey⟩
  · rintro ⟨m, hm, p, hp, file, hfile, hkey⟩
    exact ⟨file, ⟨p, ⟨m, hm, hp⟩, hfile⟩, hkey⟩

theorem mem_keys_bibitems {documents : List Document} :
    key ∈ (((documents.filterMap Document.bibitems?).map (·.1)).flatMap (·.entries)).map
        Bib.Entry.key ↔
      key ∈ documents.flatMap fun d => d.scan.bibitems.map Occurrence.key := by
  simp only [List.flatMap_map, List.map_flatMap, List.mem_flatMap, List.mem_filterMap,
    ← Document.mem_bibitems_iff]
  constructor
  · rintro ⟨source, ⟨d, hd, hsource⟩, hkey⟩
    exact ⟨d, hd, source, hsource, hkey⟩
  · rintro ⟨d, hd, source, hsource, hkey⟩
    exact ⟨source, ⟨d, hd, hsource⟩, hkey⟩

/-- **The keys of an index** are those in the files that its mentions stand for
and the items of its documents. -/
theorem mem_citationKeys_iff :
    key ∈ (sources.snapshot settings master).citationKeys ↔
      (∃ m ∈ (sources.snapshot settings master).mentions, ∃ p,
        sources.bibliography? settings master.directory m = some p ∧ key ∈ sources.keysAt p) ∨
      key ∈ (sources.snapshot settings master).itemKeys := by
  rcases sources.snapshot_cases settings master with ⟨g, -, hs⟩ | ⟨failure, -, hs⟩
  · rw [hs, Snapshot.citationKeys, Bib.Index.entries, files_snapshotOf, List.flatMap_append,
      List.map_append, List.mem_append]
    exact or_congr mem_keys_bibliographies mem_keys_bibitems
  · rw [hs]
    simp [Snapshot.citationKeys, Snapshot.mentions, Snapshot.itemKeys, Snapshot.documents,
      Snapshot.empty, Bib.Index.entries]

/-- **The files of an index** are the readable ones among those that its
mentions stand for, each once and in the order of first mention. -/
theorem bibFiles_snapshot (sources : Sources) (settings : Settings) (master : Path) :
    (sources.snapshot settings master).bibFiles =
      (firsts Path.parts ((sources.snapshot settings master).mentions.filterMap
        (sources.bibliography? settings master.directory))).filter
          fun p => (sources.read p).isOk := by
  rcases sources.snapshot_cases settings master with ⟨g, -, hs⟩ | ⟨failure, -, hs⟩
  · rw [hs, bibFiles_snapshotOf, bibliographies_eq_firsts]
    exact map_path_filterMap_bibFile? sources _
  · rw [hs]
    rfl

theorem mem_bibFiles_iff :
    p ∈ (sources.snapshot settings master).bibFiles ↔
      (∃ m ∈ (sources.snapshot settings master).mentions,
        sources.bibliography? settings master.directory m = some p) ∧
      (sources.read p).isOk = true := by
  rcases sources.snapshot_cases settings master with ⟨g, -, hs⟩ | ⟨failure, -, hs⟩
  · rw [hs, bibFiles_snapshotOf, map_path_filterMap_bibFile?, List.mem_filter,
      mem_bibliographies_iff]
    rfl
  · rw [hs]
    simp [Snapshot.mentions, Snapshot.documents, Snapshot.empty]

theorem isOk_of_mem_keysAt (h : key ∈ sources.keysAt p) : (sources.read p).isOk = true := by
  obtain ⟨file, hfile, -⟩ := mem_keysAt_iff.mp h
  rw [← isSome_bibFile?, hfile, Option.isSome_some]

/-- The keys of an index are those of the files that it lists and the items of
its documents. -/
theorem mem_citationKeys_iff_bibFiles :
    key ∈ (sources.snapshot settings master).citationKeys ↔
      (∃ p ∈ (sources.snapshot settings master).bibFiles, key ∈ sources.keysAt p) ∨
      key ∈ (sources.snapshot settings master).itemKeys := by
  rw [mem_citationKeys_iff]
  refine or_congr_left ?_
  constructor
  · rintro ⟨m, hm, p, hp, hkey⟩
    exact ⟨p, mem_bibFiles_iff.mpr ⟨⟨m, hm, hp⟩, isOk_of_mem_keysAt hkey⟩, hkey⟩
  · rintro ⟨p, hp, hkey⟩
    obtain ⟨⟨m, hm, hmp⟩, -⟩ := mem_bibFiles_iff.mp hp
    exact ⟨m, hm, p, hmp, hkey⟩

end Sources

/-! ### Warnings about what cannot be read -/

theorem filter_unreadable_eq_nil {warnings : List Warning}
    (h : ∀ w ∈ warnings, w.kind ≠ .unreadable) :
    warnings.filter (·.kind = .unreadable) = [] :=
  List.filter_eq_nil_iff.mpr fun w hw hkind => h w hw (of_decide_eq_true hkind)

theorem Document.kind_warnings (d : Document) : ∀ w ∈ d.warnings, w.kind ≠ .unreadable := by
  intro w hw
  obtain ⟨f, -, rfl⟩ := List.mem_map.mp hw
  exact WarningKind.noConfusion

theorem LabelIndex.kind_ofGraph (g : Graph) : ∀ w ∈ (ofGraph g).2, w.kind ≠ .unreadable := by
  intro w hw
  rw [ofGraph, (extend_eq knows_nil g.labels).2.1] at hw
  obtain ⟨x, -, hx⟩ := List.mem_filterMap.mp hw
  obtain ⟨first, -, rfl⟩ := Option.map_eq_some_iff.mp hx
  exact WarningKind.noConfusion

theorem Document.kind_bibitems? {d : Document} {source : Bib.File × List Warning}
    (h : d.bibitems? = some source) : ∀ w ∈ source.2, w.kind ≠ .unreadable := by
  unfold bibitems? at h
  split at h
  · cases h
  · obtain rfl := Option.some.inj h
    exact kind_bibitemsFrom d.path [] d.scan.bibitems

theorem Text.head?_append {a b : String} {c : Char} (h : a.toList.head? = some c) :
    (a ++ b).toList.head? = some c := by
  rw [String.toList_append, List.head?_append, h, Option.some_or]

theorem Mention.head?_message (m : Mention) : m.warning.message.toList.head? = some 'b' :=
  Text.head?_append (Text.head?_append (by decide))

theorem Failure.head?_message (p : Path) (reason : ReadError) :
    (Failure.unreadable p reason).message.toList.head? = some 'c' :=
  Text.head?_append (Text.head?_append (Text.head?_append (by decide)))

/-- A warning about an inclusion is at a line, and it is not taken for one about
a bibliography that is not found. -/
theorem Record.warning?_ne {r : Record} {w : Warning} (h : r.warning? = some w) :
    w.line ≠ none ∧ ∀ m : Mention, w ≠ m.warning := by
  unfold warning? at h
  dsimp only at h
  -- the messages begin with different letters
  split at h
  · cases h
  · rw [← Option.some.inj h]
    exact ⟨Option.some_ne_none _, fun m heq =>
      WarningKind.noConfusion (congrArg Warning.kind heq)⟩
  · rw [← Option.some.inj h]
    refine ⟨Option.some_ne_none _, fun m heq => ?_⟩
    have hhead := m.head?_message
    rw [← heq, Text.head?_append (Text.head?_append (c := 'i') (by decide))] at hhead
    exact absurd hhead (by decide)
  · next target reason _ =>
      rw [← Option.some.inj h]
      refine ⟨Option.some_ne_none _, fun m heq => ?_⟩
      have hhead := m.head?_message
      rw [← heq] at hhead
      exact absurd (hhead.symm.trans (Failure.head?_message target reason)) (by decide)

namespace Sources

variable {sources : Sources} {settings : Settings} {master : Path}

theorem line_of_unreadable? {p : Path} {w : Warning} (h : sources.unreadable? p = some w) :
    w.line = none := by
  unfold unreadable? at h
  split at h
  · cases h
  · rw [← Option.some.inj h]

/-- The warnings about the bibliography at a path. -/
def bibWarnings (sources : Sources) (p : Path) : List Warning :=
  match sources.bibSource p with
  | .ok (_, warnings) => warnings
  | .error warning => [warning]

theorem warnings_snapshotOf (sources : Sources) (settings : Settings) (master : Path) (g : Graph) :
    (sources.snapshotOf settings master g).warnings =
      g.warnings ++ g.documents.flatMap Document.warnings ++ (LabelIndex.ofGraph g).2 ++
        sources.bibliographyWarnings settings master.directory g ++
        (sources.bibliographies settings master.directory g).flatMap sources.bibWarnings ++
        (g.documents.filterMap Document.bibitems?).flatMap (·.2) := by
  simp only [snapshotOf, List.flatMap_map]
  rfl

/-- Of the warnings about files, those that one cannot be read. -/
theorem filter_bibWarnings (sources : Sources) (paths : List Path) :
    (paths.flatMap sources.bibWarnings).filter (·.kind = .unreadable)
      = paths.filterMap sources.unreadable? := by
  rw [List.filter_flatMap, List.filterMap_eq_flatMap_toList]
  congr 1
  funext p
  rw [bibWarnings, bibSource, readBibliography, unreadable?]
  rcases sources.read p with reason | ⟨text, revision⟩
  · rfl
  · exact filter_unreadable_eq_nil (Bib.kind_entriesFrom p [] _)

/-- Of the warnings of an index, those that something cannot be read: an
inclusion, a mention or a file. -/
theorem filter_warnings_snapshotOf (sources : Sources) (settings : Settings) (master : Path)
    (g : Graph) :
    (sources.snapshotOf settings master g).warnings.filter (·.kind = .unreadable) =
      g.warnings.filter (·.kind = .unreadable) ++
        sources.bibliographyWarnings settings master.directory g ++
        (sources.bibliographies settings master.directory g).filterMap sources.unreadable? := by
  have hdocuments : (g.documents.flatMap Document.warnings).filter (·.kind = .unreadable)
      = [] := by
    refine filter_unreadable_eq_nil fun w hw => ?_
    obtain ⟨d, -, hd⟩ := List.mem_flatMap.mp hw
    exact d.kind_warnings w hd
  have hmissing : (sources.bibliographyWarnings settings master.directory g).filter
      (·.kind = .unreadable) = sources.bibliographyWarnings settings master.directory g := by
    refine List.filter_eq_self.mpr fun w hw => ?_
    obtain ⟨m, -, rfl⟩ := List.mem_map.mp hw
    rfl
  have hitems : ((g.documents.filterMap Document.bibitems?).flatMap (·.2)).filter
      (·.kind = .unreadable) = [] := by
    refine filter_unreadable_eq_nil fun w hw => ?_
    obtain ⟨source, hsource, hw⟩ := List.mem_flatMap.mp hw
    obtain ⟨d, -, hd⟩ := List.mem_filterMap.mp hsource
    exact Document.kind_bibitems? hd w hw
  have hlabels := filter_unreadable_eq_nil (LabelIndex.kind_ofGraph g)
  rw [warnings_snapshotOf]
  simp only [List.filter_append, hdocuments, hlabels, hmissing, hitems, filter_bibWarnings,
    List.append_nil]

/-- **The warnings about what cannot be read**: after those about inclusions
there is one for each mention that stands for no file, and one for each file that
is there and cannot be read. -/
theorem unreadable_snapshot (sources : Sources) (settings : Settings) (master : Path) :
    let s := sources.snapshot settings master
    let notFound := (s.mentions.filter fun m =>
      (sources.bibliography? settings master.directory m).isNone).map Mention.warning
    let unreadable := (firsts Path.parts (s.mentions.filterMap
      (sources.bibliography? settings master.directory))).filterMap sources.unreadable?
    ∃ others, s.warnings.filter (·.kind = .unreadable) = others ++ notFound ++ unreadable ∧
      ∀ w ∈ others, w ∉ notFound ∧ w ∉ unreadable := by
  intro s notFound unreadable
  rcases sources.snapshot_cases settings master with ⟨g, -, hs⟩ | ⟨failure, -, hs⟩
  · refine ⟨g.warnings.filter (·.kind = .unreadable), ?_, fun w hw => ?_⟩
    · simp only [s, notFound, unreadable, hs]
      rw [filter_warnings_snapshotOf, bibliographies_eq_firsts]
      rfl
    · obtain ⟨r, -, hr⟩ := List.mem_filterMap.mp (List.mem_of_mem_filter hw)
      obtain ⟨hline, hne⟩ := Record.warning?_ne hr
      constructor
      · intro hmem
        obtain ⟨m, -, rfl⟩ := List.mem_map.mp hmem
        exact hne m rfl
      · intro hmem
        obtain ⟨p, -, hp⟩ := List.mem_filterMap.mp hmem
        exact hline (line_of_unreadable? hp)
  · -- without a graph there are no mentions
    have hempty : s.mentions = [] := by
      rw [show s = _ from hs]
      rfl
    simp only [notFound, unreadable, hempty]
    exact ⟨_, (List.append_nil _).symm.trans (List.append_nil _).symm,
      fun w _ => ⟨List.not_mem_nil, List.not_mem_nil⟩⟩

end Sources

end LatexIndex
