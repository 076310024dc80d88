/-
LatexIndex/Proofs/Citations.lean

Completing a key and looking it up agree.

Completion groups the entries of an index by their keys and counts those of a
group, which are the entries that are found under its key
(`citationGroups_eq`); resolution takes the first of each file.  They agree
because no file has a key twice (`Keyed`) and no two files have one path
(`Index.Distinct`).  That is kept by everything that makes an index: reading
a bibliography, collecting the items of a document, listing the
bibliographies of a graph, and the names of files, by which no document is a
bibliography (`distinct_snapshot`).

So the entries with a key are one for each file that defines it, and both
sides are read off that one list: the candidates with the key
(`filter_complete_citation`) and its resolution (`resolve_eq`).
-/
import LatexIndex.Proofs.Catalog
import LatexIndex.Proofs.FileNames
import LatexIndex.Proofs.Offering

namespace LatexIndex

namespace Bib

variable {path : Path} {key : String} {index : Index}

/-! ### Files -/

/-- Entries of the file at a path, each with a key of its own that is not
among `seen`. -/
structure Keyed (path : Path) (seen : List String) (entries : List Entry) : Prop where
  path : ∀ e ∈ entries, e.path = path
  keys : (entries.map Entry.key).Nodup
  unseen : ∀ e ∈ entries, e.key ∉ seen

theorem Keyed.nil (path : Path) (seen : List String) : Keyed path seen [] :=
  ⟨by simp, .nil, by simp⟩

theorem Keyed.cons {seen : List String} {e : Entry} {entries : List Entry} (hpath : e.path = path)
    (hnew : e.key ∉ seen) (h : Keyed path (e.key :: seen) entries) :
    Keyed path seen (e :: entries) where
  path := List.forall_mem_cons.mpr ⟨hpath, h.path⟩
  keys := by
    refine List.nodup_cons.mpr ⟨fun hmem => ?_, h.keys⟩
    obtain ⟨e', he', hkey⟩ := List.mem_map.mp hmem
    exact h.unseen e' he' (hkey ▸ List.mem_cons_self)
  unseen := List.forall_mem_cons.mpr
    ⟨hnew, fun e' he' hseen => h.unseen e' he' (List.mem_cons_of_mem e.key hseen)⟩

/-- What a block comes to has the path of its file and a new key. -/
theorem Block.read_eq_ok {block : Block} {seen : List String} {e : Entry}
    (h : block.read path seen = some (.ok e)) : e.path = path ∧ e.key ∉ seen := by
  unfold Block.read at h
  split at h
  · cases h
  · split at h
    · cases h
    · split at h
      split at h
      · cases h
      · split at h
        · cases h
        · next hnew =>
            obtain rfl := Except.ok.inj (Option.some.inj h)
            exact ⟨rfl, hnew⟩

theorem keyed_entriesFrom (path : Path) (seen : List String) (blocks : List Block) :
    Keyed path seen (entriesFrom path seen blocks).1 := by
  induction blocks generalizing seen with
  | nil => exact .nil path seen
  | cons block more ih =>
      rw [entriesFrom]
      split
      · exact ih seen
      · next e hread =>
          obtain ⟨hpath, hnew⟩ := Block.read_eq_ok hread
          exact .cons hpath hnew (ih (e.key :: seen))
      · exact ih seen

theorem keyed_bibitemsFrom (path : Path) (seen : List String) (items : List Markup.Occurrence) :
    Keyed path seen (bibitemsFrom path seen items).1 := by
  induction items generalizing seen with
  | nil => exact .nil path seen
  | cons item more ih =>
      rw [bibitemsFrom]
      split
      · exact ih seen
      · next hnew => exact .cons rfl hnew (ih (item.key :: seen))

/-! ### Indices -/

/-- No file has a key twice, and no two files have one path. -/
structure Index.Distinct (index : Index) : Prop where
  keyed : ∀ file ∈ index.files, Keyed file.path [] file.entries
  paths : index.files.Pairwise fun a b => a.path.same b.path = false

namespace Index

theorem Distinct.pairwise_entries (h : index.Distinct) :
    index.entries.Pairwise fun a b => a.key = b.key → a.path.same b.path = false := by
  rw [entries, List.pairwise_flatMap]
  constructor
  · intro file hfile
    exact (List.pairwise_map.mp (h.keyed file hfile).keys).imp fun hne heq => absurd heq hne
  · refine h.paths.imp_of_mem fun {a b} ha hb hab x hx y hy _ => ?_
    rwa [(h.keyed a ha).path x hx, (h.keyed b hb).path y hy]

/-- The entries with a key are of different files. -/
theorem Distinct.pairwise_lookup (h : index.Distinct) (key : String) :
    (index.lookup key).Pairwise fun a b => a.path.same b.path = false := by
  have hkey : ∀ e ∈ index.lookup key, e.key = key := by
    intro e he
    simpa using (List.mem_filter.mp he).2
  refine (h.pairwise_entries.filter _).imp_of_mem fun {a b} ha hb hab => hab ?_
  rw [hkey a ha, hkey b hb]

/-- A key resolves to all its entries. -/
theorem Distinct.resolve_eq (h : index.Distinct) (key : String) :
    index.resolve key [] = .ofLocations ((index.lookup key).map fun e => ⟨e.path, e.line⟩) := by
  have hall : (index.lookup key).filter (fun e =>
      ([] : List Path).isEmpty || ([] : List Path).any (·.same e.path)) = index.lookup key :=
    List.filter_eq_self.mpr fun _ _ => rfl
  simp only [resolve, hall, Listing.distinct_of_pairwise (h.pairwise_lookup key)]

end Index

namespace Resolution

theorem ofLocations_eq_notFound {locations : List Location} :
    ofLocations locations = notFound ↔ locations = [] := by
  rcases locations with - | ⟨a, - | ⟨b, more⟩⟩ <;> simp [ofLocations]

theorem ofLocations_eq_ambiguous {locations ambiguities : List Location} :
    ofLocations locations = ambiguous ambiguities ↔
      1 < locations.length ∧ locations = ambiguities := by
  rcases locations with - | ⟨a, - | ⟨b, more⟩⟩ <;> simp [ofLocations]

end Resolution

end Bib

/-! ### The index of a snapshot -/

open Bib

variable {sources : Sources} {settings : Settings} {master p : Path} {g : Graph}

theorem Sources.bibSource_eq_ok {file : File} {warnings : List Warning}
    (h : sources.bibSource p = .ok (file, warnings)) :
    file.path = p ∧ Keyed p [] file.entries := by
  unfold bibSource at h
  split at h
  · next entries _ hread =>
      obtain ⟨rfl, -⟩ := Prod.mk.inj (Except.ok.inj h)
      refine ⟨rfl, ?_⟩
      unfold readBibliography at hread
      split at hread
      · next text _ _ =>
          obtain ⟨rfl, -⟩ := Prod.mk.inj (Except.ok.inj hread)
          exact keyed_entriesFrom p [] _
      · cases hread
  · cases h

theorem Document.bibitems?_eq_some {d : Document} {file : File} {warnings : List Warning}
    (h : d.bibitems? = some (file, warnings)) :
    file.path = d.path ∧ Keyed d.path [] file.entries := by
  unfold bibitems? at h
  split at h
  · cases h
  · obtain ⟨rfl, -⟩ := Prod.mk.inj (Option.some.inj h)
    exact ⟨rfl, keyed_bibitemsFrom d.path [] _⟩

/-- The bibliography at a path, if it can be read. -/
def Sources.bibFile? (sources : Sources) (p : Path) : Option File :=
  match sources.bibSource p with
  | .ok (file, _) => some file
  | .error _ => none

theorem Sources.bibFile?_eq_some {file : File} (h : sources.bibFile? p = some file) :
    file.path = p ∧ Keyed p [] file.entries := by
  unfold bibFile? at h
  split at h
  · next hsource =>
      obtain rfl := Option.some.inj h
      exact bibSource_eq_ok hsource
  · cases h

/-- The files of an index are the bibliographies that can be read, followed
by the items of the documents. -/
theorem Sources.files_snapshotOf (sources : Sources) (settings : Settings) (master : Path)
    (g : Graph) :
    (sources.snapshotOf settings master g).bibs.files =
      (sources.bibliographies settings master.directory g).filterMap sources.bibFile? ++
        (g.documents.filterMap Document.bibitems?).map (·.1) := by
  simp only [snapshotOf, List.filterMap_map]
  rfl

theorem Sources.hasEnding_of_bibliography? {directory : Path} {m : Mention}
    (h : sources.bibliography? settings directory m = some p) : p.HasEnding ".bib" :=
  Path.hasEnding_of_mem_candidates Path.isEnding_bib (List.mem_of_find?_eq_some h)

/-- The bibliographies of a graph are the files that its mentions stand for. -/
theorem Sources.mem_bibliographies_iff {directory : Path} :
    p ∈ sources.bibliographies settings directory g ↔
      ∃ m ∈ g.mentions, sources.bibliography? settings directory m = some p := by
  constructor
  · intro h
    exact List.mem_filterMap.mp (Listing.mem_of_mem_distinctFrom h)
  · rintro ⟨m, hm, hr⟩
    have hmem : p ∈ g.mentions.filterMap (sources.bibliography? settings directory) :=
      List.mem_filterMap.mpr ⟨m, hm, hr⟩
    obtain ⟨b, hb, hsame⟩ := Listing.exists_mem_distinct Path.same_refl hmem
    -- both are written in the normal way
    obtain rfl : b = p := by
      obtain ⟨m', -, hm'⟩ := List.mem_filterMap.mp (Listing.mem_of_mem_distinctFrom hb)
      obtain ⟨-, q, rfl⟩ := resolve?_eq_some hr
      obtain ⟨-, q', rfl⟩ := resolve?_eq_some hm'
      have hparts := Path.same_iff.mp hsame
      rw [Path.parts_normalize, Path.parts_normalize] at hparts
      rw [Path.normalize, Path.normalize, hparts]
    exact hb

theorem Sources.hasEnding_of_mem_bibliographies {directory : Path}
    (h : p ∈ sources.bibliographies settings directory g) : p.HasEnding ".bib" := by
  obtain ⟨m, -, hm⟩ := mem_bibliographies_iff.mp h
  exact hasEnding_of_bibliography? hm

theorem Sources.distinct_snapshotOf (hg : sources.graph master = .ok g)
    (hm : ¬ master.HasEnding ".bib") :
    (sources.snapshotOf settings master g).bibs.Distinct := by
  refine ⟨?_, ?_⟩
  · intro file hfile
    rw [files_snapshotOf, List.mem_append] at hfile
    rcases hfile with hfile | hfile
    · obtain ⟨p, -, hp⟩ := List.mem_filterMap.mp hfile
      obtain ⟨hpath, hkeyed⟩ := bibFile?_eq_some hp
      rwa [hpath]
    · obtain ⟨⟨_, warnings⟩, hitems, rfl⟩ := List.mem_map.mp hfile
      obtain ⟨d, -, hd⟩ := List.mem_filterMap.mp hitems
      obtain ⟨hpath, hkeyed⟩ := Document.bibitems?_eq_some hd
      rwa [hpath]
  · rw [files_snapshotOf, List.pairwise_append]
    refine ⟨?_, ?_, ?_⟩
    · refine List.pairwise_filterMap.mpr ((Listing.pairwise_distinct _).imp ?_)
      intro p q hpq a ha b hb
      rwa [(bibFile?_eq_some ha).1, (bibFile?_eq_some hb).1]
    · rw [List.pairwise_map]
      refine List.pairwise_filterMap.mpr ((Graph.rooted_of_graph hg).pairwise_same.imp ?_)
      intro d e hde a ha b hb
      rwa [(Document.bibitems?_eq_some ha).1, (Document.bibitems?_eq_some hb).1]
    · -- a bibliography and a document have different names
      intro a ha b hb
      obtain ⟨p, hp, hread⟩ := List.mem_filterMap.mp ha
      obtain ⟨⟨_, warnings⟩, hitems, rfl⟩ := List.mem_map.mp hb
      obtain ⟨d, hd, hbitems⟩ := List.mem_filterMap.mp hitems
      rw [(bibFile?_eq_some hread).1, (Document.bibitems?_eq_some hbitems).1]
      rw [Bool.eq_false_iff, ne_eq, Path.same_iff]
      intro hparts
      exact Graph.not_bib_of_mem_documents hg hm hd
        ((hasEnding_of_mem_bibliographies hp).congr hparts)

/-- **An index has at most one entry for a key and a path**, unless the
master itself has the name of a bibliography. -/
theorem Sources.distinct_snapshot (settings : Settings) (hm : ¬ master.HasEnding ".bib") :
    (sources.snapshot settings master).bibs.Distinct := by
  unfold snapshot
  split
  · next hg => exact distinct_snapshotOf hg hm
  · exact ⟨fun _ hfile => absurd hfile List.not_mem_nil, .nil⟩

/-! ### Candidates -/

namespace Completion

variable {index : Index} {key typed : String}

/-- The groups of some entries: one for each key, where the key first occurs,
with all entries that have it. -/
def groupsOf (entries : List Entry) : List CitationGroup :=
  (Listing.firsts Entry.key entries).map fun first =>
    ⟨first.key, entries.filter (·.key = first.key)⟩

theorem map_key_groupsOf (entries : List Entry) :
    (groupsOf entries).map CitationGroup.key =
      (Listing.firsts Entry.key entries).map Entry.key := by
  rw [groupsOf, List.map_map]
  rfl

/-- An entry is put into the group of its key. -/
theorem groupsOf_concat_known {entries : List Entry} {entry : Entry}
    (h : entry.key ∈ entries.map Entry.key) :
    groupsOf (entries ++ [entry]) = (groupsOf entries).map fun group =>
      if entry.key == group.key then group.add entry else group := by
  rw [groupsOf, Listing.firsts_concat, if_pos h, List.append_nil, groupsOf, List.map_map]
  refine List.map_congr_left fun first _ => ?_
  by_cases hkey : entry.key = first.key
  · simp [hkey, CitationGroup.add]
  · simp [hkey]

/-- An entry with a new key is a new group. -/
theorem groupsOf_concat_new {entries : List Entry} {entry : Entry}
    (h : entry.key ∉ entries.map Entry.key) :
    groupsOf (entries ++ [entry]) = groupsOf entries ++ [⟨entry.key, [entry]⟩] := by
  have hnone : entries.filter (·.key = entry.key) = [] := by
    rw [List.filter_eq_nil_iff]
    intro e he hkey
    exact h (of_decide_eq_true hkey ▸ List.mem_map_of_mem he)
  rw [groupsOf, Listing.firsts_concat, if_neg h, List.map_append, groupsOf]
  congr 1
  · refine List.map_congr_left fun first hfirst => ?_
    have hkey : entry.key ≠ first.key := by
      intro hkey
      rw [hkey] at h
      exact h (Listing.mem_map_firsts.mp (List.mem_map_of_mem hfirst))
    simp [hkey]
  · simp [hnone]

/-- Filing one more entry keeps the groups in step with the entries. -/
theorem items_fileEntry {groups : Catalog CitationGroup.key} {before : List Entry}
    (h : groups.items = groupsOf before) (entry : Entry) :
    (fileEntry groups entry).items = groupsOf (before ++ [entry]) := by
  have hkeys : groups.items.map CitationGroup.key =
      (Listing.firsts Entry.key before).map Entry.key := by
    rw [h, map_key_groupsOf]
  unfold fileEntry
  rcases hfound : groups.position? entry.key with - | i
  · have hnew : entry.key ∉ before.map Entry.key := by
      rw [← Listing.mem_map_firsts, ← hkeys, List.mem_map]
      rintro ⟨group, hgroup, hkey⟩
      rw [Catalog.position?_eq, List.findIdx?_eq_none_iff] at hfound
      simpa [hkey] using hfound group hgroup
    rw [groupsOf_concat_new hnew, ← h]
    rfl
  · obtain ⟨group, hgroup, hkey⟩ := Catalog.exists_of_position? hfound
    have hknown : entry.key ∈ before.map Entry.key := by
      rw [← Listing.mem_map_firsts, ← hkeys, eq_of_beq hkey]
      exact List.mem_map_of_mem (List.mem_of_getElem? hgroup)
    have hnodup : (groups.items.map CitationGroup.key).Nodup := by
      rw [hkeys]
      exact Listing.nodup_map_firsts Entry.key before
    rw [groupsOf_concat_known hknown, ← h]
    exact Catalog.items_change hnodup hfound _ _

theorem items_foldl_fileEntry {groups : Catalog CitationGroup.key} {before : List Entry}
    (h : groups.items = groupsOf before) (more : List Entry) :
    (more.foldl fileEntry groups).items = groupsOf (before ++ more) := by
  induction more generalizing groups before with
  | nil => rwa [List.append_nil]
  | cons entry more ih =>
      rw [List.foldl_cons, ih (items_fileEntry h entry), List.append_assoc]
      rfl

/-- **Grouping entries is looking up their keys**: the groups of an index are
its keys in the order in which they first occur, each with the entries that
are found under it. -/
theorem citationGroups_eq (index : Index) :
    citationGroups index = (Listing.firsts Entry.key index.entries).map fun first =>
      ⟨first.key, index.lookup first.key⟩ :=
  @items_foldl_fileEntry .empty [] rfl index.entries

theorem word_candidate? {length : Nat} {group : CitationGroup} {c : Candidate}
    (h : group.candidate? length = some c) : c.word = group.key := by
  obtain ⟨first, -, rfl⟩ := Option.map_eq_some_iff.mp h
  rfl

/-- A key has the one candidate of its group, or none. -/
theorem filter_citations (length : Nat) (index : Index) (key : String) :
    (citations length index).filter (·.word = key) =
      ((CitationGroup.mk key (index.lookup key)).candidate? length).toList := by
  have hword : ∀ first : Entry,
      ((CitationGroup.mk first.key (index.lookup first.key)).candidate? length).filter
          (·.word = key) =
        if first.key = key then (CitationGroup.mk key (index.lookup key)).candidate? length
        else none := by
    intro first
    rcases hc : (CitationGroup.mk first.key (index.lookup first.key)).candidate? length with - | c
    · split
      · next hkey => rw [← hkey, hc, Option.filter_none]
      · rfl
    · rw [Option.filter_some, word_candidate? hc]
      by_cases hkey : first.key = key
      · rw [if_pos (decide_eq_true hkey), if_pos hkey, ← hkey, hc]
      · rw [if_neg (mt of_decide_eq_true hkey), if_neg hkey]
  have hfirst : (Listing.firsts Entry.key index.entries).filter (·.key = key) =
      (index.lookup key).head?.toList := by
    rw [← Listing.distinct_eq_firsts fun a b => beq_iff_eq, Listing.filter_distinct, Index.lookup]
  rw [citations, citationGroups_eq, List.filterMap_map, List.filter_filterMap]
  simp only [Function.comp_def, hword]
  calc (Listing.firsts Entry.key index.entries).filterMap (fun first =>
        if first.key = key then (CitationGroup.mk key (index.lookup key)).candidate? length
        else none)
      = (index.lookup key).head?.toList.filterMap fun _ =>
          (CitationGroup.mk key (index.lookup key)).candidate? length := by
        simp only [← hfirst, List.filterMap_filter, decide_eq_true_iff]
    _ = ((CitationGroup.mk key (index.lookup key)).candidate? length).toList := by
        rcases index.lookup key with - | ⟨first, more⟩ <;> rfl

/-- **A key is offered by its first entry**, whatever was typed of it. -/
theorem filter_complete_citation {known : Knowledge} (hlimit : known.settings.completionLimit = 0)
    (htyped : typed.toList <+: key.toList) :
    (complete known .citation typed).filter (·.word = key) =
      ((CitationGroup.mk key (known.snapshot.bibs.lookup key)).candidate?
        known.settings.bibInfoLength).toList := by
  rw [complete, upTo, if_pos hlimit, candidates, filter_offer_eq, if_pos htyped,
    ← List.head?_filter, filter_citations]
  rcases (CitationGroup.mk key _).candidate? _ with - | c
  · rfl
  · rfl

/-- A candidate says that a key is defined in more than one file where its
entries are of different files and more than one, and counts them. -/
theorem candidate_of_pairwise {length : Nat} {group : CitationGroup} {c : Candidate}
    (h : group.entries.Pairwise fun a b => a.path.same b.path = false)
    (hc : group.candidate? length = some c) :
    (c.ambiguous = true ↔ 1 < group.entries.length) ∧
      (1 < group.entries.length →
        ∃ shown : String, c.info = some s!"{shown} (defined in {group.entries.length} files)") := by
  have hfiles : Listing.distinct Path.same (group.entries.map (·.path)) =
      group.entries.map (·.path) :=
    Listing.distinct_of_pairwise (List.pairwise_map.mpr h)
  obtain ⟨first, -, rfl⟩ := Option.map_eq_some_iff.mp hc
  have hambiguous : group.isAmbiguous = true ↔ 1 < group.entries.length := by
    rw [CitationGroup.isAmbiguous, hfiles, List.length_map, decide_eq_true_iff]
  refine ⟨hambiguous, fun hmany => ⟨entryInfo length first, ?_⟩⟩
  dsimp only
  rw [if_pos (hambiguous.mpr hmany)]

/-- **Completing a citation and resolving it agree.**  In the index of a
project whose master is not named like a bibliography, a key has at most one
entry for each path.  It is offered once for everything that may have been
typed of it if it resolves, and not at all otherwise; it is marked as
ambiguous exactly if its resolution is, and then the files that are counted
are the locations. -/
theorem citation_agrees_with_resolution {sources : Sources} {settings : Settings} {master : Path}
    (hmaster : ¬ master.HasEnding ".bib") {known : Knowledge}
    (hknown : known.snapshot = sources.snapshot settings master)
    (hlimit : known.settings.completionLimit = 0) (key : String) {typed : String}
    (htyped : typed.toList <+: key.toList) :
    ((known.snapshot.bibs.lookup key).Pairwise fun a b => a.path.same b.path = false) ∧
    ((complete known .citation typed).filter (·.word = key)).length =
      (if known.snapshot.bibs.resolve key [] = .notFound then 0 else 1) ∧
    ∀ c ∈ complete known .citation typed, c.word = key →
      (c.ambiguous = true ↔
        ∃ locations, known.snapshot.bibs.resolve key [] = .ambiguous locations) ∧
      ∀ locations, known.snapshot.bibs.resolve key [] = .ambiguous locations →
        ∃ shown : String, c.info = some s!"{shown} (defined in {locations.length} files)" := by
  have hdistinct : known.snapshot.bibs.Distinct := by
    rw [hknown]
    exact Sources.distinct_snapshot settings hmaster
  have hlookup := hdistinct.pairwise_lookup key
  have hfilter := filter_complete_citation hlimit htyped
  rw [hdistinct.resolve_eq]
  refine ⟨hlookup, ?_, ?_⟩
  · rw [hfilter]
    rcases known.snapshot.bibs.lookup key with - | ⟨e, more⟩
    · rfl
    · simp [Resolution.ofLocations_eq_notFound, CitationGroup.candidate?]
  · intro c hc hword
    have hmem : c ∈ (complete known .citation typed).filter (·.word = key) :=
      List.mem_filter.mpr ⟨hc, by simpa using hword⟩
    rw [hfilter] at hmem
    obtain ⟨hambiguous, hinfo⟩ := candidate_of_pairwise hlookup (Option.mem_toList.mp hmem)
    simp only [Resolution.ofLocations_eq_ambiguous, List.length_map]
    refine ⟨hambiguous.trans ⟨fun hmany => ⟨_, hmany, rfl⟩, ?_⟩, ?_⟩
    · rintro ⟨locations, hmany, -⟩
      exact hmany
    rintro locations ⟨hmany, rfl⟩
    rw [List.length_map]
    exact hinfo hmany

/-- A project with a key in a bibliography and among the items of the
master. -/
def sharedKey : Sources :=
  ⟨⟨[(["m.tex"], .file "\\bibliography{r}\n\\bibitem{k1}".toUTF8),
      (["r.bib"], .file "@book{k1, title = {A}}\n@book{k2}".toUTF8)], [], "/"⟩, []⟩

/-- What is known of it. -/
def sharedKnowledge : Knowledge :=
  ⟨sharedKey.disk, "", {}, sharedKey.snapshot {} ⟨"/m.tex"⟩⟩

theorem shared_resolve : sharedKnowledge.snapshot.bibs.resolve "k1" [] =
    .ambiguous [⟨⟨"/r.bib"⟩, 0⟩, ⟨⟨"/m.tex"⟩, 1⟩] := by
  decide +kernel

theorem shared_master : ¬ (Path.mk "/m.tex").HasEnding ".bib" := by
  rintro ⟨name, hname, hending⟩
  obtain rfl : "m.tex" = name := Option.some.inj hname
  exact absurd hending (by decide)

theorem citation_agrees_with_resolution_shared :
    ¬ (Path.mk "/m.tex").HasEnding ".bib" ∧
    sharedKnowledge.snapshot.bibs.resolve "k1" [] =
      .ambiguous [⟨⟨"/r.bib"⟩, 0⟩, ⟨⟨"/m.tex"⟩, 1⟩] ∧
    ((complete sharedKnowledge .citation "k").filter (·.word = "k1")).length = 1 ∧
    ∀ c ∈ complete sharedKnowledge .citation "k", c.word = "k1" → c.ambiguous = true ∧
      ∃ shown : String, c.info = some s!"{shown} (defined in {2} files)" := by
  have htyped : "k".toList <+: "k1".toList := by decide
  obtain ⟨-, honce, hall⟩ :=
    @citation_agrees_with_resolution sharedKey {} ⟨"/m.tex"⟩ shared_master sharedKnowledge rfl rfl
      "k1" "k" htyped
  refine ⟨shared_master, shared_resolve, ?_, ?_⟩
  · rw [honce, shared_resolve]
    rfl
  · intro c hc hword
    obtain ⟨hambiguous, hcount⟩ := hall c hc hword
    obtain ⟨shown, hshown⟩ := hcount _ shared_resolve
    refine ⟨hambiguous.mpr ⟨_, shared_resolve⟩, shown, ?_⟩
    rw [hshown]
    simp only [List.length_cons, List.length_nil, Nat.zero_add, Nat.reduceAdd]

end Completion

end LatexIndex
