/-
LatexIndex/Proofs/OfferedPaths.lean

The names that are offered for an inclusion, and the files they stand for.

A document is offered under the way to it from the master's directory, without
`.tex` at the end.  Such a word is meant to be put into an inclusion, where it is
seen from that directory and gets `.tex` unless it ends so.  The way leads back to
the document (`normalize_join_relativeTo?`), so all depends on the ending: what is
taken off must be what is put on again.  It is exactly if the name ends in `.tex`
once (`resolve?_includeWord_iff`).  A name that ends in `.TEX` is offered whole and
gets an ending it did not have, and one that ends in `.tex.tex` is not given back
the ending it lost.

The documents of a project end in `.tex`, so for them only a second ending matters.
Here it is used that nothing lies below a file (`not_isFile_below`): a document is
not above the master's directory, so the way to it ends in its name.
-/
import LatexIndex.Proofs.Bibliographies
import LatexIndex.Proofs.BreadthFirst
import LatexIndex.Proofs.Offering
import LatexIndex.Proofs.RelativePaths

namespace LatexIndex

open Text Markup

/-! ### Files have nothing below them -/

namespace Disk

variable {disk : Disk} {place : Place} {found : Place × Node} {p q root : Path}

theorem follow_of_lookUp (hp : p.isAbsolute = true) (h : disk.lookUp p = .ok found) :
    disk.follow [] p.segments = .ok found := by
  unfold lookUp at h
  split at h
  · cases h
  split at h
  · cases h
  split at h
  · cases h
  exact h

/-- Whatever is followed further is a directory. -/
theorem directory_of_follow {segs more : List String} (hne : more ≠ [])
    (h : disk.follow place (segs ++ more) = .ok found) :
    ∃ above, disk.follow place segs = .ok (above, .directory) := by
  induction segs generalizing place with
  | nil =>
      obtain ⟨s, more, rfl⟩ := List.exists_cons_of_ne_nil hne
      rw [List.nil_append, follow] at h
      split at h
      · cases h
      · cases h
      · next hnode => exact ⟨place, by rw [follow, hnode]⟩
  | cons s segs ih =>
      rw [List.cons_append, follow] at h
      rw [follow]
      split at h
      · cases h
      · cases h
      · next hnode =>
          split at h
          · next hidle =>
              rw [if_pos hidle]
              exact ih h
          · next hidle =>
              split at h
              · next hup =>
                  rw [if_neg hidle, if_pos hup]
                  exact ih h
              · next hup =>
                  split at h
                  · cases h
                  · next hlong =>
                      rw [if_neg hidle, if_neg hup, if_neg hlong]
                      exact ih h

theorem isFile_root : disk.isFile (Path.ofParts [.root]) = false :=
  isFile_pathOf_nil

theorem not_isFile_below {above below : List Part} (hp : Path.IsNormal (.root :: above))
    (hq : Path.IsNormal (.root :: (above ++ below))) (hne : below ≠ [])
    (hfile : disk.isFile (Path.ofParts (.root :: above)) = true) :
    disk.isFile (Path.ofParts (.root :: (above ++ below))) = false := by
  rw [← Bool.not_eq_true]
  intro hbelow
  have habove : above ≠ [] := by
    rintro rfl
    rw [isFile_root] at hfile
    cases hfile
  obtain ⟨place, bytes, hlook⟩ := isFile_iff.mp hfile
  obtain ⟨place', bytes', hlook'⟩ := isFile_iff.mp hbelow
  have hfollow := follow_of_lookUp (Path.isSettled_ofParts hp).1 hlook
  have hfollow' := follow_of_lookUp (Path.isSettled_ofParts hq).1 hlook'
  rw [Path.segments_of_isNormal hq (by simp [habove]), List.map_append, ← List.cons_append,
    ← Path.segments_of_isNormal hp habove] at hfollow'
  obtain ⟨other, hdirectory⟩ := directory_of_follow (by simpa using hne) hfollow'
  rw [hfollow] at hdirectory
  cases hdirectory

/-- No file is the directory of another one, or above it. -/
theorem not_isFile_above_directory {above left : List Part} (hp : p.IsSettled)
    (hfile : disk.isFile p = true) (habove : Path.IsNormal (.root :: above))
    (hdirectory : p.directory.parts = .root :: (above ++ left)) :
    disk.isFile (Path.ofParts (.root :: above)) = false := by
  rw [← Bool.not_eq_true]
  intro hfileAbove
  obtain ⟨rest, rfl, -, hnormal⟩ := hp.exists_rest
  rcases List.eq_nil_or_concat' rest with rfl | ⟨init, x, rfl⟩
  · rw [isFile_root] at hfile
    cases hfile
  · have hinit : Path.IsNormal (.root :: init) := hnormal.of_begins ⟨[x], rfl⟩
    rw [Path.directory_eq_ofParts hnormal, hinit.parts_ofParts] at hdirectory
    obtain rfl := (List.cons.inj hdirectory).2
    rw [List.append_assoc] at hfile hnormal
    rw [not_isFile_below habove hnormal (by simp) hfileAbove] at hfile
    cases hfile

/-- What is listed below a settled path is settled. -/
theorem isSettled_of_mem_filesUnder (hnames : ∀ e ∈ disk.entries, Path.Named e.1)
    (hroot : root.IsSettled) {depth : Nat} (h : p ∈ disk.filesUnder root depth) :
    p.IsSettled := by
  unfold filesUnder at h
  split at h
  · cases h
  · rwa [List.mem_singleton.mp h]
  · obtain ⟨way, hway, rfl⟩ := List.mem_map.mp h
    obtain ⟨⟨other, node⟩, hentry, hother⟩ := List.mem_filterMap.mp (List.mem_mergeSort.mp hway)
    rcases node with bytes | -
    · obtain ⟨-, hdrop⟩ := Option.ite_none_right_eq_some.mp hother
      obtain rfl := Option.some.inj hdrop
      exact hroot.foldl_join fun n hn => hnames _ hentry n (List.mem_of_mem_drop hn)
    · cases hother

end Disk

/-! ### Documents of a project on disk -/

namespace Sources

variable {sources : Sources} {disk : Disk} {settings : Settings} {master p : Path} {g : Graph}
  {d : Document} {name : String}

/-- All paths of a project with a settled master are settled. -/
theorem Included.isSettled (hm : master.IsSettled) (h : sources.Included master p) :
    p.IsSettled := by
  induction h with
  | master => exact hm
  | inclusion _ _ _ hr _ ih =>
      obtain ⟨base, hbase, rfl⟩ := List.mem_map.mp (List.mem_of_find?_eq_some hr)
      have habsolute : base.isAbsolute = true := by
        rcases List.mem_pair.mp hbase with rfl | rfl
        · exact hm.directory.1
        · exact ih.directory.1
      exact Path.isSettled_normalize (Path.isAbsolute_join habsolute _)

theorem Included.isFile (h : Included ⟨disk, []⟩ master p) (hne : p ≠ master) :
    disk.isFile p = true := by
  cases h with
  | master => exact absurd rfl hne
  | inclusion _ _ _ hr _ => exact (resolve?_eq_some hr).1

theorem isFile_of_graph (h : graph ⟨disk, []⟩ master = .ok g) : disk.isFile master = true := by
  obtain ⟨d, hload⟩ := exists_load_of_graph h
  rcases loads_iff.mpr ⟨d, hload⟩ with hbuffer | ⟨bytes, text, hbytes, -⟩
  · cases hbuffer
  · obtain ⟨place, hlook⟩ := Disk.lookUp_of_readBytes hbytes
    exact Disk.isFile_iff.mpr ⟨place, bytes, hlook⟩

theorem master_snapshot (sources : Sources) (settings : Settings) (master : Path) :
    (sources.snapshot settings master).master = master := by
  rcases snapshot_cases sources settings master with ⟨g, -, h⟩ | ⟨failure, -, h⟩ <;> rw [h] <;> rfl

/-- The documents that are told are those of the graph without the master. -/
theorem exists_graph_of_included (hd : d ∈ (sources.snapshot settings master).includedDocuments) :
    ∃ g, sources.graph master = .ok g ∧ d ∈ g.documents ∧ d.path.parts ≠ master.parts := by
  rcases snapshot_cases sources settings master with ⟨g, hg, h⟩ | ⟨failure, -, h⟩
  · rw [h] at hd
    obtain ⟨m, rest, hdocuments, hm⟩ := (Graph.placed_of_graph hg).1
    have hrest : d ∈ rest := by
      change d ∈ g.documents.drop 1 at hd
      rwa [hdocuments] at hd
    have hdistinct := (Graph.rooted_of_graph hg).distinct
    rw [hdocuments, List.map_cons, List.nodup_cons, hm] at hdistinct
    refine ⟨g, hg, hdocuments ▸ List.mem_cons_of_mem m hrest, fun hsame => hdistinct.1 ?_⟩
    exact hsame ▸ List.mem_map_of_mem hrest
  · rw [h] at hd
    cases hd

/-- The way to a document from the master's directory ends in its name. -/
theorem ending_relativeTo? (hm : master.IsSettled) (hg : graph ⟨disk, []⟩ master = .ok g)
    (hd : d ∈ g.documents) (hne : d.path ≠ master)
    (h : d.path.relativeTo? master.directory = some name) : ".tex".toList <:+ name.toList := by
  have hincluded := (Graph.sound_of_graph hg).2.included d hd
  have hsettled := hincluded.isSettled hm
  obtain ⟨common, left, down, hparts, hbase, rfl⟩ := Path.exists_way hsettled hm.directory h
  obtain ⟨rest, hwritten, hrest, hnormal⟩ := hsettled.exists_rest
  obtain rfl : rest = common ++ down := (List.cons.inj (hrest.symm.trans hparts)).2
  -- were nothing to go down, the document would be above the master
  have hdown : down ≠ [] := by
    rintro rfl
    have hfile := hincluded.isFile hne
    rw [List.append_nil] at hwritten hnormal
    rw [hwritten, Disk.not_isFile_above_directory hm (isFile_of_graph hg) hnormal hbase] at hfile
    cases hfile
  obtain ⟨init, last, rfl⟩ := (List.eq_nil_or_concat' down).resolve_left hdown
  obtain ⟨n, hname, hending⟩ := hincluded.eq_or_ending.resolve_left hne
  have hlast : last = .name n := by
    rw [Path.fileName?, hparts, ← List.append_assoc, ← List.cons_append,
      List.getLast?_concat] at hname
    cases last <;> simp at hname
    rw [hname]
  have hinner := Path.inner_ups_append
    (fun x hx => hnormal.inner (List.mem_append_right common hx)) left.length
  rw [← List.append_assoc, hlast] at hinner ⊢
  exact hending.trans (Path.suffix_text_ofParts hinner)

end Sources

/-! ### Words and the files they stand for -/

namespace Completion

variable {disk : Disk} {settings : Settings} {master p base : Path} {name stem word : String}

/-- The name ends in `.tex`, and not in one that follows another. -/
def EndsOnce (name : String) : Prop :=
  ".tex".toList <:+ name.toList ∧ ¬ ".tex.tex".toList <:+ name.toList

instance (name : String) : Decidable (EndsOnce name) :=
  inferInstanceAs (Decidable (_ ∧ _))

theorem endsOnce_append : EndsOnce (stem ++ ".tex") ↔ ¬ ".tex".toList <:+ stem.toList := by
  have htwice : ".tex.tex".toList = ".tex".toList ++ ".tex".toList := by decide
  rw [EndsOnce, String.toList_append, htwice, and_iff_right (List.suffix_append _ _)]
  refine not_congr ⟨?_, ?_⟩
  · rintro ⟨before, hbefore⟩
    rw [← List.append_assoc] at hbefore
    exact ⟨before, List.append_cancel_right hbefore⟩
  · rintro ⟨before, hbefore⟩
    exact ⟨before, by rw [← List.append_assoc, hbefore]⟩

theorem includeWord_append (stem : String) : includeWord (stem ++ ".tex") = stem := by
  have hends : ".tex".toList.isSuffixOf (stem ++ ".tex").toList = true := by
    rw [List.isSuffixOf_iff_suffix, String.toList_append]
    exact List.suffix_append _ _
  rw [includeWord, withoutEnding?, if_pos hends]
  simp

theorem includeWord_of_not_ending (h : ¬ ".tex".toList <:+ name.toList) :
    includeWord name = name := by
  rw [includeWord, withoutEnding?, if_neg (List.isSuffixOf_iff_suffix.not.mpr h)]

/-- What a word stands for, seen from one directory. -/
theorem resolve?_from_iff :
    Sources.resolve? ⟨disk, []⟩ word [base] ".tex" = some p ↔
      (base.join (if ".tex".toList <:+ word.toList then word else word ++ ".tex")).normalize = p ∧
        disk.isFile p = true := by
  have hhas : ∀ q, Sources.has ⟨disk, []⟩ q = disk.isFile q := fun _ => rfl
  rw [Sources.resolve?, Path.candidates, List.map_singleton, List.find?_singleton]
  simp only [List.isSuffixOf_iff_suffix, hhas, Option.ite_none_right_eq_some, Option.some.injEq]
  constructor
  · rintro ⟨hfile, rfl⟩
    exact ⟨rfl, hfile⟩
  · rintro ⟨rfl, hfile⟩
    exact ⟨hfile, rfl⟩

/-- Putting `.tex` behind a name leads elsewhere. -/
theorem normalize_join_append_ne (hbase : base.isAbsolute = true) (name : String) :
    (base.join (name ++ ".tex")).normalize ≠ (base.join name).normalize := by
  have hjoin : base.join (name ++ ".tex") = ⟨(base.join name).text ++ ".tex"⟩ :=
    congrArg Path.mk (Path.text_join_append base name Path.isEnding_tex.slash)
  rw [hjoin]
  exact Path.normalize_append_ne Path.isEnding_tex (Path.isAbsolute_join hbase name)

/-- **The word for a name stands for what the name leads to exactly if the name
ends in `.tex` once** and leads to a file. -/
theorem resolve?_includeWord_iff (disk : Disk) (hbase : base.isAbsolute = true) (name : String) :
    Sources.resolve? ⟨disk, []⟩ (includeWord name) [base] ".tex" = some (base.join name).normalize ↔
      EndsOnce name ∧ disk.isFile (base.join name).normalize = true := by
  rw [resolve?_from_iff]
  refine and_congr_left fun _ => ?_
  by_cases hends : ".tex".toList <:+ name.toList
  · obtain ⟨before, hbefore⟩ := hends
    obtain rfl : name = String.ofList before ++ ".tex" :=
      String.toList_injective (by rw [← hbefore]; simp)
    rw [includeWord_append, endsOnce_append]
    by_cases htwice : ".tex".toList <:+ (String.ofList before).toList
    · rw [if_pos htwice]
      exact iff_of_false (normalize_join_append_ne hbase _).symm (not_not_intro htwice)
    · rw [if_neg htwice]
      exact iff_of_true rfl htwice
  · rw [includeWord_of_not_ending hends, if_neg hends]
    exact iff_of_false (normalize_join_append_ne hbase name) fun honce => hends honce.1

/-! ### What is offered -/

/-- The paths of the documents that can be included. -/
def offeredPaths (disk : Disk) (snapshot : Snapshot) : List Path :=
  snapshot.includedDocuments.map (·.path) ++ freeDocuments disk snapshot

theorem mem_inclusions {snapshot : Snapshot} {c : Candidate} :
    c ∈ inclusions disk snapshot ↔
      ∃ p ∈ offeredPaths disk snapshot, inclusion? snapshot p = some c :=
  List.mem_filterMap

/-- No path that is offered is the master's, and all are settled. -/
theorem isSettled_of_offered (hm : master.IsSettled)
    (hnames : ∀ e ∈ disk.entries, Path.Named e.1)
    (hp : p ∈ offeredPaths disk (Sources.snapshot ⟨disk, []⟩ settings master)) :
    p.IsSettled ∧ p.same master = false := by
  rcases List.mem_append.mp hp with hp | hp
  · obtain ⟨d, hd, rfl⟩ := List.mem_map.mp hp
    obtain ⟨g, hg, hmem, hne⟩ := Sources.exists_graph_of_included hd
    refine ⟨((Graph.sound_of_graph hg).2.included d hmem).isSettled hm, ?_⟩
    rw [← Bool.not_eq_true, Path.same_iff]
    exact hne
  · obtain ⟨hlisted, htest⟩ := List.mem_filter.mp hp
    rw [Snapshot.masterDirectory, Sources.master_snapshot] at hlisted
    rw [Sources.master_snapshot, Bool.and_eq_true, Bool.and_eq_true, Bool.not_eq_true'] at htest
    exact ⟨Disk.isSettled_of_mem_filesUnder hnames hm.directory hlisted, htest.1.1⟩

/-- **A document is offered under a word that stands for it exactly if its name
ends in `.tex` once.**  Without buffers and without a limit, for a settled master:
every candidate was made from a path that is offered, and none of these is the
master's; a candidate stands for the path it was made from exactly if the way to
that path ends in `.tex` once and a file is found there.  Every document but the
master is a file, and if the way to it does not end in `.tex.tex`, some candidate
stands for it; there is a way to all of them if the master's path has no `..`. -/
theorem offered_path_resolves_iff (disk : Disk) (fonts : String) (settings : Settings)
    (master : Path) (hm : master.IsSettled) (hnames : ∀ e ∈ disk.entries, Path.Named e.1)
    (hlimit : settings.completionLimit = 0) :
    let snapshot := Sources.snapshot ⟨disk, []⟩ settings master
    let offered := complete ⟨disk, fonts, settings, snapshot⟩ .includePath ""
    let stands (word : String) (p : Path) : Prop :=
      Sources.resolve? ⟨disk, []⟩ word [master.directory] ".tex" = some p
    (∀ c ∈ offered, ∃ p ∈ offeredPaths disk snapshot, inclusion? snapshot p = some c) ∧
    (∀ p ∈ offeredPaths disk snapshot, p.same master = false ∧
      ∀ c, inclusion? snapshot p = some c → ∃ name, p.relativeTo? master.directory = some name ∧
        (stands c.word p ↔ EndsOnce name ∧ disk.isFile p = true)) ∧
    (∀ d ∈ snapshot.includedDocuments, disk.isFile d.path = true ∧
      (∀ name, d.path.relativeTo? master.directory = some name →
        ¬ ".tex.tex".toList <:+ name.toList → ∃ c ∈ offered, stands c.word d.path) ∧
      (.up ∉ master.parts → ∃ name, d.path.relativeTo? master.directory = some name)) := by
  intro snapshot offered stands
  have hdirectory : snapshot.masterDirectory = master.directory := by
    rw [Snapshot.masterDirectory, Sources.master_snapshot]
  have hoffered : offered = offer "" (inclusions disk snapshot) := by
    show upTo settings.completionLimit _ = _
    rw [hlimit]
    rfl
  have hstands : ∀ p ∈ offeredPaths disk snapshot, ∀ name,
      p.relativeTo? master.directory = some name →
        (stands (includeWord name) p ↔ EndsOnce name ∧ disk.isFile p = true) := by
    intro p hp name hname
    have hback := Path.normalize_join_relativeTo? (isSettled_of_offered hm hnames hp).1
      hm.directory hname
    have hiff := resolve?_includeWord_iff disk hm.directory.1 name
    rwa [hback] at hiff
  refine ⟨fun c hc => ?_, fun p hp => ⟨(isSettled_of_offered hm hnames hp).2, fun c hc => ?_⟩,
    fun d hd => ?_⟩
  · rw [hoffered, mem_offer] at hc
    exact mem_inclusions.mp (List.mem_of_find?_eq_some hc.2)
  · obtain ⟨name, hname, rfl⟩ := Option.map_eq_some_iff.mp hc
    rw [hdirectory] at hname
    exact ⟨name, hname, hstands p hp name hname⟩
  · obtain ⟨g, hg, hmem, hparts⟩ := Sources.exists_graph_of_included hd
    have hne : d.path ≠ master := fun heq => hparts (by rw [heq])
    have hincluded := (Graph.sound_of_graph hg).2.included d hmem
    have hfile := hincluded.isFile hne
    have hpath : d.path ∈ offeredPaths disk snapshot :=
      List.mem_append_left _ (List.mem_map_of_mem hd)
    refine ⟨hfile, fun name hname htwice => ?_, fun hup => ?_⟩
    · have hends := Sources.ending_relativeTo? hm hg hmem hne hname
      obtain ⟨made, hmade, hword⟩ :
          ∃ c, inclusion? snapshot d.path = some c ∧ c.word = includeWord name := by
        rw [inclusion?, hdirectory, hname, Option.map_some]
        exact ⟨_, rfl, rfl⟩
      have hcandidate : ∃ c ∈ inclusions disk snapshot, c.word = includeWord name :=
        ⟨made, mem_inclusions.mpr ⟨d.path, hpath, hmade⟩, hword⟩
      have htyped : "".toList <+: (includeWord name).toList := by simp
      obtain ⟨c, hc, hword⟩ := exists_mem_offer.mpr ⟨htyped, hcandidate⟩
      refine ⟨c, hoffered ▸ hc, ?_⟩
      rw [hword]
      exact (hstands d.path hpath name hname).mpr ⟨⟨hends, htwice⟩, hfile⟩
    · refine Path.exists_relativeTo? (hincluded.isSettled hm) hm.directory fun hmem => hup ?_
      rw [Path.parts_directory, Path.directoryParts] at hmem
      split at hmem
      · simp at hmem
      · exact List.dropLast_subset _ hmem

/-- A master that names a file below it and one beside its directory, and a file
that nothing names. -/
def scatteredDisk : Disk :=
  ⟨[(["p", "m.tex"], .file "\\input{s/a}\n\\input{../o/b}".toUTF8),
    (["p", "s", "a.tex"], .file "".toUTF8), (["o", "b.tex"], .file "".toUTF8),
    (["p", "s", "c.tex"], .file "".toUTF8)], [], "/"⟩

theorem scattered_named : ∀ e ∈ scatteredDisk.entries, Path.Named e.1 := by
  have hinner : ∀ e ∈ scatteredDisk.entries, ∀ n ∈ e.1,
      Path.partOf? n = some (.name n) ∧ n.toList.contains '/' = false := by
    decide +kernel
  intro e he n hn
  obtain ⟨hpart, hslash⟩ := hinner e he n hn
  exact ⟨hpart, by simpa [Part.text] using hslash⟩

theorem scattered_free : Path.mk "/p/s/c.tex" ∈
    offeredPaths scatteredDisk (Sources.snapshot ⟨scatteredDisk, []⟩ {} ⟨"/p/m.tex"⟩) := by
  have hlists : scatteredDisk.Lists ["p"] := .inl (by decide +kernel)
  have hdirectory : (Path.mk "/p/m.tex").directory = Disk.pathOf ["p"] := by decide +kernel
  refine List.mem_append_right _ (List.mem_filter.mpr ⟨?_, by decide +kernel⟩)
  rw [Snapshot.masterDirectory, Sources.master_snapshot, hdirectory, Disk.mem_filesUnder hlists]
  refine ⟨["p", "s", "c.tex"], ⟨"".toUTF8, by decide +kernel⟩, ?_, by decide +kernel⟩
  exact ⟨by decide, by decide, by decide +kernel⟩

/-- The file that nothing names is offered under a word that stands for it, and the
document beside the master's directory is what some candidate stands for. -/
theorem offered_path_resolves_iff_scattered :
    let snapshot := Sources.snapshot ⟨scatteredDisk, []⟩ {} ⟨"/p/m.tex"⟩
    let offered := complete ⟨scatteredDisk, "", {}, snapshot⟩ .includePath ""
    (Path.mk "/p/m.tex").IsSettled ∧
    (∃ c, inclusion? snapshot ⟨"/p/s/c.tex"⟩ = some c ∧
      Sources.resolve? ⟨scatteredDisk, []⟩ c.word [⟨"/p"⟩] ".tex" = some ⟨"/p/s/c.tex"⟩) ∧
    ∃ d ∈ snapshot.includedDocuments, d.path = ⟨"/o/b.tex"⟩ ∧
      d.path.relativeTo? ⟨"/p"⟩ = some "../o/b.tex" ∧
      ∃ c ∈ offered, Sources.resolve? ⟨scatteredDisk, []⟩ c.word [⟨"/p"⟩] ".tex" = some d.path := by
  intro snapshot offered
  have hm : (Path.mk "/p/m.tex").IsSettled := by decide +kernel
  obtain ⟨-, hpaths, hdocuments⟩ :=
    offered_path_resolves_iff scatteredDisk "" {} ⟨"/p/m.tex"⟩ hm scattered_named rfl
  have hmade : (inclusion? snapshot ⟨"/p/s/c.tex"⟩).isSome = true := by decide +kernel
  have hany : snapshot.includedDocuments.any (·.path = ⟨"/o/b.tex"⟩) = true := by decide +kernel
  have hway : Path.relativeTo? ⟨"/p/s/c.tex"⟩ (Path.mk "/p/m.tex").directory = some "s/c.tex" := by
    decide +kernel
  have hwayBeside : Path.relativeTo? ⟨"/o/b.tex"⟩ (Path.mk "/p/m.tex").directory
      = some "../o/b.tex" := by
    decide +kernel
  obtain ⟨c, hc⟩ := Option.isSome_iff_exists.mp hmade
  obtain ⟨d, hd, hpath⟩ := List.any_eq_true.mp hany
  rw [← of_decide_eq_true hpath] at hwayBeside
  refine ⟨hm, ⟨c, hc, ?_⟩, d, hd, of_decide_eq_true hpath, hwayBeside, ?_⟩
  · obtain ⟨name, hname, hiff⟩ := (hpaths _ scattered_free).2 c hc
    obtain rfl := Option.some.inj (hway.symm.trans hname)
    exact hiff.mpr (by decide +kernel)
  · exact (hdocuments d hd).2.1 _ hwayBeside (by decide)

/-- A master that names a file whose name ends in `.tex` twice, and a file whose name
ends in `.TEX`. -/
def doubledDisk : Disk :=
  ⟨[(["A.TEX"], .file "".toUTF8), (["m.tex"], .file "\\input{x.tex.tex}".toUTF8),
    (["x.tex.tex"], .file "".toUTF8)], [], "/"⟩

theorem doubled_inclusions :
    inclusions doubledDisk (Sources.snapshot ⟨doubledDisk, []⟩ {} ⟨"/m.tex"⟩) =
      [⟨"x.tex", some "included", .includePath, false⟩, ⟨"A.TEX", none, .includePath, false⟩] := by
  have hroot : doubledDisk.lookUp ⟨"/"⟩ = .ok ([], .directory) := by decide +kernel
  have hdirectory : (Path.mk "/m.tex").directory = ⟨"/"⟩ := by decide +kernel
  -- what is listed is in order already
  have hfiles : doubledDisk.filesUnder ⟨"/"⟩ includeSearchDepth
      = [⟨"/A.TEX"⟩, ⟨"/m.tex"⟩, ⟨"/x.tex.tex"⟩] := by
    rw [Disk.filesUnder, hroot]
    dsimp only
    rw [List.mergeSort_of_pairwise (by decide +kernel)]
    decide +kernel
  rw [inclusions, freeDocuments, Snapshot.masterDirectory, Sources.master_snapshot, hdirectory,
    hfiles]
  decide +kernel

/-- Both are offered, under words that stand for nothing. -/
theorem offered_word_stands_for_nothing :
    let snapshot := Sources.snapshot ⟨doubledDisk, []⟩ {} ⟨"/m.tex"⟩
    let offered := complete ⟨doubledDisk, "", {}, snapshot⟩ .includePath ""
    (∃ c ∈ offered, c.word = "A.TEX") ∧
    (∃ d ∈ snapshot.includedDocuments, d.path = ⟨"/x.tex.tex"⟩) ∧
    (∃ c ∈ offered, c.word = "x.tex") ∧
    ∀ c ∈ offered, Sources.resolve? ⟨doubledDisk, []⟩ c.word [⟨"/"⟩] ".tex" = none := by
  intro snapshot offered
  have hoffered : offered = offer "" (inclusions doubledDisk snapshot) := rfl
  have hany : snapshot.includedDocuments.any (·.path = ⟨"/x.tex.tex"⟩) = true := by decide +kernel
  have hwords : ∀ word ∈ ["A.TEX", "x.tex"], ∃ c ∈ offered, c.word = word := by
    intro word hword
    have hmade : ∃ c ∈ inclusions doubledDisk snapshot, c.word = word := by
      rw [doubled_inclusions]
      revert word
      decide +kernel
    exact hoffered ▸ exists_mem_offer.mpr ⟨by simp, hmade⟩
  refine ⟨hwords _ (by simp), ?_, hwords _ (by simp), fun c hc => ?_⟩
  · obtain ⟨d, hd, hpath⟩ := List.any_eq_true.mp hany
    exact ⟨d, hd, of_decide_eq_true hpath⟩
  · rw [hoffered, mem_offer] at hc
    have hmem := List.mem_of_find?_eq_some hc.2
    rw [doubled_inclusions] at hmem
    have hnothing : ∀ word ∈ ["x.tex", "A.TEX"],
        Sources.resolve? ⟨doubledDisk, []⟩ word [⟨"/"⟩] ".tex" = none := by
      decide +kernel
    rcases List.mem_pair.mp hmem with rfl | rfl
    · exact hnothing _ (by simp)
    · exact hnothing _ (by simp)

end Completion

end LatexIndex
