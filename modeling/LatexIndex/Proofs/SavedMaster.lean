/-
LatexIndex/Proofs/SavedMaster.lean

The master that is found after the buffers were saved.

A climb goes from a document to the smallest one that includes it.  What is
listed on the way is the same before and after saving, every document of it is
read alike and includes the same files, so each step leads to the same document
(`container?_save`).

The two climbs have different bounds, because there are different files on the
two disks.  Both suffice: a climb passes no document twice, and it passes only
documents that there are paths to (`climbs_climb`).  So the climbs are compared
step by step, without their bounds (`Climbs.mirror`).

Together with the index of what was saved this says that open buffers behave
like saved files (`saving_keeps_project`).
-/
import Mathlib.Logic.Relation
import LatexIndex.Proofs.LoadedDocuments
import LatexIndex.Proofs.SavedIndex
import LatexIndex.Proofs.SavedListing

namespace LatexIndex

open Markup

/-- A document that cannot be read has no master. -/
def Failure.masterless (start : Path) (reason : ReadError) : Failure :=
  .notFound s!"master of {start.text}: {(Failure.unreadable start reason).message}"

/-- The snapshot of a project whose master cannot be read. -/
def Snapshot.unread (master : Path) (reason : ReadError) : Snapshot :=
  { Snapshot.empty master with warnings := [(Failure.unreadable master reason).toWarning] }

namespace Sources

variable {sources saved : Sources} {settings : Settings} {p c current start result root : Path}
  {passed : List Path} {level : Nat} {d : Document}

/-! ### Climbing -/

/-- What is known of the document that a step of a climb leads to. -/
theorem exists_of_container? (h : sources.container? settings current = some c) :
    ∃ root level, sources.searchRoot? settings current = some (root, level) ∧
      c ∈ sources.candidates root (level + 3) ∧ sources.has c = true := by
  rw [container?, Option.bind_eq_bind, Option.bind_eq_some_iff] at h
  obtain ⟨⟨root, level⟩, hroot, hfind⟩ := h
  refine ⟨root, level, hroot, List.mem_of_find?_eq_some hfind, ?_⟩
  have hcontains := List.find?_some hfind
  rw [Bool.and_eq_true, containsPath] at hcontains
  obtain ⟨-, hcontains⟩ := hcontains
  rcases hload : sources.load c with failure | d
  · rw [hload] at hcontains
    cases hcontains
  · exact has_of_load hload

/-- A climb passes only documents that there are paths to. -/
theorem parts_mem_of_container? (h : sources.container? settings current = some c) :
    c.parts ∈ sources.knownPaths := by
  obtain ⟨root, level, -, hmem, hhas⟩ := exists_of_container? h
  rcases List.mem_append.mp (Path.mem_of_mem_sorted hmem) with hdisk | hbuffer
  · obtain ⟨p, -, rfl⟩ := List.mem_map.mp hdisk
    exact parts_mem_knownPaths hhas
  · obtain ⟨e, he, rfl⟩ := List.mem_map.mp (List.mem_filter.mp hbuffer).1
    exact List.mem_append_right _ (List.mem_map_of_mem he)

/-- A climb from `current`, having passed the documents `passed`, ends at the
last path. -/
inductive Climbs (sources : Sources) (settings : Settings) : Path → List Path → Path → Prop
  /-- Nothing includes the document. -/
  | top {current : Path} {passed : List Path} : sources.container? settings current = none →
      Climbs sources settings current passed current
  /-- The climb comes back to a document it has passed. -/
  | cycle {current c : Path} {passed : List Path} : sources.container? settings current = some c →
      (current :: passed).any (·.same c) = true →
      Climbs sources settings current passed
        ((Path.minimum? (cycleTo c (current :: passed))).getD current)
  /-- A document with a document class includes the document. -/
  | root {current c : Path} {passed : List Path} : sources.container? settings current = some c →
      ¬ (current :: passed).any (·.same c) = true → sources.declaresRoot c = true →
      Climbs sources settings current passed c
  | step {current c result : Path} {passed : List Path} : sources.container? settings current = some c →
      ¬ (current :: passed).any (·.same c) = true → ¬ sources.declaresRoot c = true →
      Climbs sources settings c (current :: passed) result →
      Climbs sources settings current passed result

theorem Climbs.unique {a b : Path} (ha : sources.Climbs settings current passed a)
    (hb : sources.Climbs settings current passed b) : a = b := by
  induction ha with
  | top hc => cases hb <;> grind
  | cycle hc hany => cases hb <;> grind
  | root hc hany hroot => cases hb <;> grind
  | step hc hany hroot _ ih =>
      cases hb with
      | step hc' _ _ hrest =>
          obtain rfl := Option.some.inj (hc.symm.trans hc')
          exact ih hrest
      | _ => grind

-- Without this the two sides are compared by running the search.
seal seekContainer in
theorem climbFrom_succ (sources : Sources) (settings : Settings) (fuel : Nat) (current : Path)
    (passed : List Path) (loaded : List Document) :
    sources.climbFrom settings (fuel + 1) current passed loaded
      = match sources.seekContainer settings current loaded with
        | (none, _) => current
        | (some c, loaded) =>
          if (current :: passed).any (·.same c) then
            (Path.minimum? (cycleTo c (current :: passed))).getD current
          else if (loadedAt? loaded c).any (·.scan.declaresRoot) then c
          else sources.climbFrom settings fuel c (current :: passed) loaded :=
  rfl

/-- A bounded climb is a climb.  The documents it has passed are different
ones, so there cannot be more of them than there are paths. -/
theorem climbs_climbFrom (start : Path) {fuel : Nat} {loaded : List Document}
    (hloaded : sources.Holds loaded)
    (hknown : ∀ p ∈ current :: passed, p.parts ∈ start.parts :: sources.knownPaths)
    (hnodup : ((current :: passed).map Path.parts).Nodup)
    (hfuel : sources.knownPaths.length + 1 < fuel + (current :: passed).length) :
    sources.Climbs settings current passed
      (sources.climbFrom settings fuel current passed loaded) := by
  induction fuel generalizing current passed loaded with
  | zero =>
      -- the documents passed and the current one are too many to be different
      have hsubset : (current :: passed).map Path.parts ⊆ start.parts :: sources.knownPaths := by
        intro x hx
        obtain ⟨p, hp, rfl⟩ := List.mem_map.mp hx
        exact hknown p hp
      have hlen := (List.subperm_of_subset hnodup hsubset).length_le
      simp only [List.length_map, List.length_cons] at hlen hfuel
      omega
  | succ fuel ih =>
      obtain ⟨hc, hholds, hclass⟩ := found_seekContainer hloaded settings current
      rw [climbFrom_succ]
      rcases hseek : sources.seekContainer settings current loaded with ⟨- | c, loaded'⟩
      · rw [hseek] at hc
        exact .top hc.symm
      rw [hseek] at hc hholds hclass
      replace hc : sources.container? settings current = some c := hc.symm
      replace hclass := hclass c hc
      dsimp only at hholds hclass ⊢
      rw [hclass]
      by_cases hany : (current :: passed).any (·.same c) = true
      · rw [if_pos hany]
        exact .cycle hc hany
      rw [if_neg hany]
      by_cases hroot : sources.declaresRoot c = true
      · rw [if_pos hroot]
        exact .root hc hany hroot
      rw [if_neg hroot]
      have hnew : c.parts ∉ (current :: passed).map Path.parts := by
        intro hmem
        obtain ⟨p, hp, hparts⟩ := List.mem_map.mp hmem
        exact hany (List.any_eq_true.mpr ⟨p, hp, Path.same_iff.mpr hparts⟩)
      refine .step hc hany hroot (ih hholds ?_ (List.nodup_cons.mpr ⟨hnew, hnodup⟩) ?_)
      · intro p hp
        rcases List.mem_cons.mp hp with rfl | hp
        · exact List.mem_cons_of_mem _ (parts_mem_of_container? hc)
        · exact hknown p hp
      · simp only [List.length_cons] at hfuel ⊢
        omega

/-- **Climbing ends by itself**: the bound of a climb is never met. -/
theorem climbs_climb (sources : Sources) (settings : Settings) (start : Path) :
    sources.Climbs settings start [] (sources.climb settings start) := by
  apply climbs_climbFrom start (holds_nil sources)
  · intro p hp
    rw [List.mem_singleton.mp hp]
    exact List.mem_cons_self
  · simp
  · simp

/-- One step of a climb. -/
def Ascends (sources : Sources) (settings : Settings) (p q : Path) : Prop :=
  sources.container? settings p = some q

/-- Two climbs that lead from each document to the same one go hand in
hand. -/
theorem Climbs.mirror (h : sources.Climbs settings current passed result)
    (hc : ∀ p, Relation.ReflTransGen (sources.Ascends settings) current p →
      saved.container? settings p = sources.container? settings p ∧
        saved.declaresRoot p = sources.declaresRoot p) :
    saved.Climbs settings current passed result := by
  induction h with
  | top hnone => exact .top (by rw [(hc _ .refl).1, hnone])
  | cycle hsome hany => exact .cycle (by rw [(hc _ .refl).1, hsome]) hany
  | root hsome hany hroot =>
      refine .root (by rw [(hc _ .refl).1, hsome]) hany ?_
      rwa [(hc _ (.single hsome)).2]
  | step hsome hany hroot _ ih =>
      refine .step (by rw [(hc _ .refl).1, hsome]) hany ?_ (ih fun p hp => ?_)
      · rwa [(hc _ (.single hsome)).2]
      · exact hc p (.head hsome hp)

/-! ### Searching alike -/

theorem exists_error_of_has_false (h : sources.has p = false) :
    ∃ reason, sources.read p = .error reason := by
  rcases hread : sources.read p with reason | ⟨text, revision⟩
  · exact ⟨reason, rfl⟩
  · have hload : sources.load p = .ok ⟨p, revision, scan text⟩ := by rw [load, hread]
    rw [has_of_load hload] at h
    cases h

namespace Mirrors

/-- A document says the same wherever it was read from. -/
theorem load_cases (h : Mirrors sources saved) (hp : p.IsPlain) :
    (∃ d, sources.load p = .ok d ∧ saved.load p = .ok d.unversioned) ∨
      (∃ failure, sources.load p = .error failure) ∧ ∃ failure, saved.load p = .error failure := by
  by_cases hhas : sources.has p = true
  · rw [h.load_eq hp hhas]
    rcases sources.load p with failure | d
    · exact .inr ⟨⟨failure, rfl⟩, failure, rfl⟩
    · exact .inl ⟨d, rfl, rfl⟩
  · rw [Bool.not_eq_true] at hhas
    obtain ⟨reason, hread⟩ := exists_error_of_has_false hhas
    obtain ⟨reason', hread'⟩ := exists_error_of_has_false ((h.has p hp).trans hhas)
    exact .inr ⟨⟨_, by rw [load, hread]⟩, _, by rw [load, hread']⟩

theorem declaresRoot_eq (h : Mirrors sources saved) (hp : p.IsPlain) :
    saved.declaresRoot p = sources.declaresRoot p := by
  rw [declaresRoot, declaresRoot]
  rcases h.load_cases hp with ⟨d, hold, hnew⟩ | ⟨⟨failure, hold⟩, failure', hnew⟩
  · rw [hold, hnew]
    rfl
  · rw [hold, hnew]

theorem containsPath_eq (h : Mirrors sources saved) (hp : p.IsPlain)
    (hc : ∀ d, sources.load p = .ok d → ∀ i ∈ d.scan.inclusions,
      ∀ q ∈ Path.candidates i.target (climbBases p root) ".tex", q.IsDirect) :
    saved.containsPath current root p = sources.containsPath current root p := by
  rw [containsPath, containsPath]
  rcases h.load_cases hp with ⟨d, hold, hnew⟩ | ⟨⟨failure, hold⟩, failure', hnew⟩
  · rw [hold, hnew]
    have hpath : d.path = p := path_of_load hold
    dsimp only [includesPath, Document.unversioned]
    rw [Bool.eq_iff_iff, List.any_eq_true, List.any_eq_true]
    refine exists_congr fun i => and_congr_right fun hi => ?_
    rw [hpath, h.resolve?_eq (hc d hold i hi)]
  · rw [hold, hnew]

end Mirrors

section Saved

variable {disk : Disk} {buffers : Buffers}

theorem holdsRoot_save (h : disk.Savable buffers) (hl : disk.Listable buffers)
    (hp : current.IsPlain) (hhas : has ⟨disk, buffers⟩ current = true)
    (hmem : p ∈ current.directory.ancestors) :
    holdsRoot ⟨disk.save buffers, []⟩ p = holdsRoot ⟨disk, buffers⟩ p := by
  obtain ⟨r, hr, hne, rfl⟩ := hp.exists_of_mem_ancestors (h.place_ne_nil hp hhas) hmem
  obtain ⟨hlists, hsaved⟩ := h.lists_of_has hp hhas hr hne
  have hn : Path.Named r := hp.named.of_begins hr
  rw [holdsRoot, holdsRoot, candidates_save hl hn hlists hsaved, Bool.eq_iff_iff,
    List.any_eq_true, List.any_eq_true]
  refine exists_congr fun c => and_congr_right fun hc => ?_
  rw [(mirrors_save h).declaresRoot_eq (isPlain_of_mem_listing hl hn hlists hc)]

/-- The search starts from the same directory. -/
theorem searchRoot?_save (h : disk.Savable buffers) (hl : disk.Listable buffers)
    (hp : current.IsPlain) (hhas : has ⟨disk, buffers⟩ current = true) :
    searchRoot? ⟨disk.save buffers, []⟩ settings current
      = searchRoot? ⟨disk, buffers⟩ settings current := by
  have hheld : (current.directory.ancestors.take rootSearchLimit).map
        (holdsRoot ⟨disk.save buffers, []⟩)
      = (current.directory.ancestors.take rootSearchLimit).map (holdsRoot ⟨disk, buffers⟩) :=
    List.map_congr_left fun p hmem => holdsRoot_save h hl hp hhas (List.mem_of_mem_take hmem)
  have hindex := congrArg (List.findIdx? id) hheld
  rw [List.findIdx?_map, List.findIdx?_map, Function.id_comp, Function.id_comp] at hindex
  rw [searchRoot?, searchRoot?, hindex]

/-- The search starts from a directory above the document. -/
theorem lists_of_searchRoot? (h : disk.Savable buffers) (hp : current.IsPlain)
    (hhas : has ⟨disk, buffers⟩ current = true)
    (hroot : searchRoot? ⟨disk, buffers⟩ settings current = some (root, level)) :
    ∃ r, root = Disk.pathOf r ∧ Path.Named r ∧ disk.Lists r ∧ (disk.save buffers).Lists r := by
  rw [searchRoot?, Option.map_eq_some_iff] at hroot
  obtain ⟨p, hp', heq⟩ := hroot
  obtain ⟨rfl, -⟩ := Prod.mk.inj heq
  have hmem := List.mem_of_mem_take (List.mem_of_getElem? hp')
  obtain ⟨r, hr, hne, rfl⟩ := hp.exists_of_mem_ancestors (h.place_ne_nil hp hhas) hmem
  exact ⟨r, rfl, hp.named.of_begins hr, h.lists_of_has hp hhas hr hne⟩

/-- No inclusion leads above the root that is looked at for a document that
includes `current`. -/
def StepConfined (sources : Sources) (settings : Settings) (current : Path) : Prop :=
  ∀ root level, sources.searchRoot? settings current = some (root, level) →
    ∀ c ∈ sources.candidates root (level + 3), ∀ d, sources.load c = .ok d →
      ∀ i ∈ d.scan.inclusions, ∀ p ∈ Path.candidates i.target (climbBases c root) ".tex",
        p.IsDirect

/-- **A step of a climb** leads to the same document after saving. -/
theorem container?_save (h : disk.Savable buffers) (hl : disk.Listable buffers)
    (hp : current.IsPlain) (hhas : has ⟨disk, buffers⟩ current = true)
    (hc : StepConfined ⟨disk, buffers⟩ settings current) :
    container? ⟨disk.save buffers, []⟩ settings current
      = container? ⟨disk, buffers⟩ settings current := by
  rw [container?, container?, searchRoot?_save h hl hp hhas]
  rcases hroot : searchRoot? ⟨disk, buffers⟩ settings current with - | ⟨root, level⟩
  · rfl
  obtain ⟨r, rfl, hn, hlists, hsaved⟩ := lists_of_searchRoot? h hp hhas hroot
  dsimp only [Option.bind_eq_bind, Option.bind_some]
  rw [candidates_save hl hn hlists hsaved]
  refine List.find?_congr fun c hmem => ?_
  have hplain := isPlain_of_mem_listing hl hn hlists hmem
  rw [(mirrors_save h).containsPath_eq hplain fun d => hc _ level hroot c hmem d]

/-- A climb passes only plain paths with something to read. -/
theorem plain_of_ascends (h : disk.Savable buffers) (hl : disk.Listable buffers)
    (hp : start.IsPlain) (hhas : has ⟨disk, buffers⟩ start = true)
    (hway : Relation.ReflTransGen (Ascends ⟨disk, buffers⟩ settings) start p) :
    p.IsPlain ∧ has ⟨disk, buffers⟩ p = true := by
  induction hway with
  | refl => exact ⟨hp, hhas⟩
  | tail _ hstep ih =>
      obtain ⟨root, level, hroot, hmem, hread⟩ := exists_of_container? hstep
      obtain ⟨r, rfl, hn, hlists, -⟩ := lists_of_searchRoot? h ih.1 ih.2 hroot
      exact ⟨isPlain_of_mem_listing hl hn hlists hmem, hread⟩

/-- **A climb** ends at the same document after saving. -/
theorem climb_save (h : disk.Savable buffers) (hl : disk.Listable buffers)
    (hp : start.IsPlain) (hhas : has ⟨disk, buffers⟩ start = true)
    (hc : ∀ p, Relation.ReflTransGen (Ascends ⟨disk, buffers⟩ settings) start p →
      StepConfined ⟨disk, buffers⟩ settings p) :
    climb ⟨disk.save buffers, []⟩ settings start = climb ⟨disk, buffers⟩ settings start := by
  have hmirror : Climbs ⟨disk.save buffers, []⟩ settings start []
      (climb ⟨disk, buffers⟩ settings start) := by
    refine (climbs_climb ⟨disk, buffers⟩ settings start).mirror fun p hway => ?_
    obtain ⟨hplain, hread⟩ := plain_of_ascends h hl hp hhas hway
    exact ⟨container?_save h hl hplain hread (hc p hway),
      (mirrors_save h).declaresRoot_eq hplain⟩
  exact (climbs_climb _ settings start).unique hmirror

/-! ### The master -/

/-- Nothing that the search for a master looks at leads above the root: not
the master that the settings name, nor the one that a modeline names, nor an
inclusion that is looked at while climbing. -/
structure SearchConfined (sources : Sources) (settings : Settings) (start : Path) : Prop where
  configured : ∀ name, settings.master = some name →
    (start.directory.join name).normalize.IsDirect
  modeline : ∀ d name, sources.load start = .ok d →
    modelineMaster? d.scan settings.modelineLines = some name →
    (start.directory.join name).normalize.IsDirect
  climb : ∀ p, Relation.ReflTransGen (sources.Ascends settings) start p →
    sources.StepConfined settings p

theorem Mirrors.require_eq (h : Mirrors sources saved) {path : Path} {otherwise : String}
    (hp : path.normalize.IsDirect) :
    saved.require path.normalize otherwise = sources.require path.normalize otherwise := by
  rw [require, require, h.has _ ⟨hp, Path.normalize_normalize path⟩]

/-- The master that the settings name. -/
theorem master_of_configured {name : String} (h : settings.master = some name) :
    sources.master settings start
      = sources.require (start.directory.join name).normalize
          s!"configured master `{(start.directory.join name).normalize.text}`" := by
  rw [master, h]

theorem master_of_read_error {reason : ReadError} (hs : settings.master = none)
    (h : sources.read start = .error reason) :
    sources.master settings start = .error (.masterless start reason) := by
  rw [master, hs, load, h]
  rfl

/-- **The master** of a document that can be read is the same after
saving. -/
theorem master_save (h : disk.Savable buffers) (hl : disk.Listable buffers) (hp : start.IsPlain)
    (hs : settings.master = none) (hhas : has ⟨disk, buffers⟩ start = true)
    (hc : SearchConfined ⟨disk, buffers⟩ settings start) :
    master ⟨disk.save buffers, []⟩ settings start = master ⟨disk, buffers⟩ settings start := by
  have hm := mirrors_save h
  rw [master, master, hs, hm.load_eq hp hhas]
  rcases hload : load ⟨disk, buffers⟩ start with failure | d
  · rfl
  dsimp only [Except.map, Document.unversioned]
  rcases hline : modelineMaster? d.scan settings.modelineLines with - | name
  · dsimp only
    rw [climb_save h hl hp hhas hc.climb]
  · dsimp only
    rw [hm.require_eq (hc.modeline d name hload hline)]

end Saved

end Sources

/-! ### Saving -/

namespace Sources

variable {sources : Sources} {settings : Settings} {c master : Path} {d : Document}

theorem snapshot_of_read_error {reason : ReadError} (h : sources.read master = .error reason) :
    sources.snapshot settings master = .unread master reason := by
  have hgraph : sources.graph master = .error (.unreadable master reason) := by
    rw [graph, load, h]
    rfl
  rw [snapshot, hgraph]
  rfl

/-- Where nothing is to be read nothing is after saving, and for the same
reason unless saving makes something on the way. -/
theorem exists_errors_save {disk : Disk} {buffers : Buffers} (h : disk.Savable buffers) {p : Path}
    (hp : p.IsPlain) (hhas : has ⟨disk, buffers⟩ p = false) :
    ∃ reason reason', read ⟨disk, buffers⟩ p = .error reason ∧
      read ⟨disk.save buffers, []⟩ p = .error reason' ∧
      (disk.Unmade buffers p.place → reason = reason') := by
  have hsaved := ((mirrors_save h).has p hp).trans hhas
  obtain ⟨reason, hread⟩ := exists_error_of_has_false hhas
  obtain ⟨reason', hread'⟩ := exists_error_of_has_false hsaved
  refine ⟨reason, reason', hread, hread', fun hunmade => ?_⟩
  rw [read_save_of_unmade h hp hhas hunmade, hread] at hread'
  exact Except.error.inj hread'

/-- **Open buffers behave like saved files.**  If the buffers can be saved,
the index of every project is the same afterwards, but for the revisions of
its documents; and if no buffer is hidden, every document has the same
master.  The one thing that saving may change is why a file cannot be read
that is there neither before nor after, and only if saving makes something on
the way to it. -/
theorem saving_keeps_project {disk : Disk} {buffers : Buffers} (h : disk.Savable buffers) :
    (∀ (settings : Settings) (master : Path), master.IsPlain →
      Confined ⟨disk, buffers⟩ settings master →
      (has ⟨disk, buffers⟩ master = true ∨ disk.Unmade buffers master.place →
        snapshot ⟨disk.save buffers, []⟩ settings master
          = (snapshot ⟨disk, buffers⟩ settings master).unversioned) ∧
      (has ⟨disk, buffers⟩ master = false → ∃ reason reason',
        snapshot ⟨disk, buffers⟩ settings master = .unread master reason ∧
        snapshot ⟨disk.save buffers, []⟩ settings master = .unread master reason')) ∧
    (disk.Listable buffers → ∀ (settings : Settings) (start : Path), start.IsPlain →
      SearchConfined ⟨disk, buffers⟩ settings start →
      (settings.master ≠ none ∨ has ⟨disk, buffers⟩ start = true ∨
          disk.Unmade buffers start.place →
        Sources.master ⟨disk.save buffers, []⟩ settings start
          = Sources.master ⟨disk, buffers⟩ settings start) ∧
      (settings.master = none → has ⟨disk, buffers⟩ start = false → ∃ reason reason',
        Sources.master ⟨disk, buffers⟩ settings start = .error (.masterless start reason) ∧
        Sources.master ⟨disk.save buffers, []⟩ settings start
          = .error (.masterless start reason'))) := by
  have hm := mirrors_save h
  constructor
  · intro settings master hp hc
    rcases hhas : has ⟨disk, buffers⟩ master with - | -
    · -- the one warning tells why the master cannot be read
      obtain ⟨reason, reason', hread, hread', hsame⟩ := exists_errors_save h hp hhas
      rw [snapshot_of_read_error hread, snapshot_of_read_error hread']
      refine ⟨fun hwhy => ?_, fun _ => ⟨reason, reason', rfl, rfl⟩⟩
      rw [hsame (hwhy.resolve_left Bool.false_ne_true)]
      rfl
    · exact ⟨fun _ => hm.snapshot_eq hp hhas hc, fun hfalse => nomatch hfalse⟩
  · intro hl settings start hp hc
    -- a configured master is found without reading the start
    rcases hs : settings.master with - | name
    · rcases hhas : has ⟨disk, buffers⟩ start with - | -
      · obtain ⟨reason, reason', hread, hread', hsame⟩ := exists_errors_save h hp hhas
        rw [master_of_read_error hs hread, master_of_read_error hs hread']
        refine ⟨fun hwhy => ?_, fun _ _ => ⟨reason, reason', rfl, rfl⟩⟩
        rw [hsame ((hwhy.resolve_left fun hne => hne rfl).resolve_left Bool.false_ne_true)]
      · exact ⟨fun _ => master_save h hl hp hs hhas hc, fun _ hfalse => nomatch hfalse⟩
    · refine ⟨fun _ => ?_, fun hnone => nomatch hnone⟩
      rw [master_of_configured hs, master_of_configured hs, hm.require_eq (hc.configured name hs)]

/-- A part of a project that was saved. -/
def draftDisk : Disk :=
  ⟨[(["p", "a.tex"], .file "\\label{x}\n".toUTF8)], [], "/"⟩

/-- A new file that includes the part, and one in a directory that is not
there yet. -/
def draftBuffers : Buffers :=
  [(⟨"/p/m.tex"⟩, ⟨"\\input{a}\n", 3⟩), (⟨"/q/t.tex"⟩, ⟨"", 1⟩)]

theorem draft_savable : draftDisk.Savable draftBuffers where
  root := rfl
  direct := by decide
  fits := by
    intro e he
    simp only [draftBuffers, List.mem_cons, List.not_mem_nil, or_false] at he
    rcases he with rfl | rfl <;> exact ⟨by decide, by decide, by decide⟩
  free := by decide
  below := by
    intro e he above habove hne bytes hfile
    obtain ⟨node, hentry⟩ := Disk.exists_entry_of_file hfile
    obtain ⟨rfl, -⟩ := Prod.mk.inj (List.mem_singleton.mp hentry)
    have hapart : ∀ e ∈ draftBuffers, ¬ ["p", "a.tex"] <+: e.1.place := by decide
    exact hapart e he habove
  apart := by decide

theorem draft_listable : draftDisk.Listable draftBuffers where
  names := by
    intro e he n hn
    obtain rfl := List.mem_singleton.mp he
    simp only [List.mem_cons, List.not_mem_nil, or_false] at hn
    rcases hn with rfl | rfl <;> exact ⟨by decide, by decide⟩
  plain := by decide
  visible := by decide

theorem draft_confined : Confined ⟨draftDisk, draftBuffers⟩ {} ⟨"/p/m.tex"⟩ where
  inclusions := by
    intro g hg
    obtain rfl := Except.ok.inj hg
    decide
  bibliographies := by
    intro g hg
    obtain rfl := Except.ok.inj hg
    decide

theorem draft_text {c : Path} {text : String} (h : draftDisk.read c = .ok text) :
    text = "\\label{x}\n" := by
  obtain ⟨bytes, hbytes, htext⟩ := Disk.read_eq_ok_iff.mp h
  obtain ⟨place, hlook⟩ := Disk.lookUp_of_readBytes hbytes
  have hnode := (Disk.walk_of_lookUp hlook).2
  have hbytes : "\\label{x}\n".toUTF8 = bytes := by
    unfold Disk.node? at hnode
    split at hnode
    · next found hfind =>
        obtain ⟨-, rfl⟩ := Prod.mk.inj (List.mem_singleton.mp (List.mem_of_find?_eq_some hfind))
        simpa using hnode
    · split at hnode <;> cases hnode
  have hdecoded : String.fromUTF8? "\\label{x}\n".toUTF8 = some "\\label{x}\n" :=
    dif_pos (String.isValidUTF8 _)
  rw [← hbytes, hdecoded] at htext
  exact (Option.some.inj htext).symm

/-- Only the new file includes anything. -/
theorem draft_inclusions (h : load ⟨draftDisk, draftBuffers⟩ c = .ok d) :
    d.scan.inclusions = [] ∨
      c.parts = (Path.mk "/p/m.tex").parts ∧ ∀ i ∈ d.scan.inclusions, i.target = "a" := by
  unfold load read at h
  simp only [draftBuffers, Buffers.find?_cons, Buffers.find?_nil] at h
  by_cases hm : (Path.mk "/p/m.tex").same c = true
  · rw [if_pos hm] at h
    obtain rfl := Except.ok.inj h
    refine .inr ⟨(Path.same_iff.mp hm).symm, ?_⟩
    show ∀ i ∈ (scan "\\input{a}\n").inclusions, i.target = "a"
    decide
  · rw [if_neg hm] at h
    left
    by_cases ht : (Path.mk "/q/t.tex").same c = true
    · rw [if_pos ht] at h
      obtain rfl := Except.ok.inj h
      rfl
    · rw [if_neg ht] at h
      rcases hread : draftDisk.read c with reason | text
      · rw [hread] at h
        cases h
      · rw [hread, draft_text hread] at h
        obtain rfl := Except.ok.inj h
        rfl

theorem draft_searchConfined : SearchConfined ⟨draftDisk, draftBuffers⟩ {} ⟨"/p/a.tex"⟩ where
  configured := fun _ hnone => nomatch hnone
  modeline := by
    intro d name hload hline
    obtain rfl := Except.ok.inj hload
    cases hline
  climb := by
    intro p hway root level hroot c hmem d hload i hi q hq
    obtain ⟨hplain, hhas⟩ :=
      plain_of_ascends draft_savable draft_listable (by decide) (by decide) hway
    obtain ⟨r, rfl, hn, hlists, -⟩ := lists_of_searchRoot? draft_savable hplain hhas hroot
    have hc := isPlain_of_mem_listing draft_listable hn hlists hmem
    rcases draft_inclusions hload with hnone | ⟨hparts, htarget⟩
    · rw [hnone] at hi
      cases hi
    · -- the bases are among the directories above the new file, wherever the search began
      obtain rfl := hc.eq_of_parts (by decide) hparts
      rw [htarget i hi] at hq
      have hall : ∀ q ∈ Path.candidates "a" (Path.mk "/p/m.tex").directory.ancestors ".tex",
          q.IsDirect := by decide
      exact hall q (List.map_subset _ (List.takeWhile_subset _) hq)

theorem saving_keeps_project_draft :
    draftDisk.Savable draftBuffers ∧
    snapshot ⟨draftDisk.save draftBuffers, []⟩ {} ⟨"/p/m.tex"⟩
      = (snapshot ⟨draftDisk, draftBuffers⟩ {} ⟨"/p/m.tex"⟩).unversioned ∧
    Sources.master ⟨draftDisk.save draftBuffers, []⟩ {} ⟨"/p/a.tex"⟩
      = Sources.master ⟨draftDisk, draftBuffers⟩ {} ⟨"/p/a.tex"⟩ := by
  obtain ⟨hsnapshot, hmaster⟩ := saving_keeps_project draft_savable
  refine ⟨draft_savable, ?_, ?_⟩
  · exact (hsnapshot {} ⟨"/p/m.tex"⟩ (by decide) draft_confined).1 (.inl (by decide))
  · exact (hmaster draft_listable {} ⟨"/p/a.tex"⟩ (by decide) draft_searchConfined).1
      (.inr (.inl (by decide)))

/-- What is not the same after saving: why a file below a buffer cannot be
read, a buffer that the settings name by a path above the root, and a buffer
that is looked at with a slash too many. -/
theorem saving_not_always_keeps :
    Disk.Savable ⟨[], [], "/"⟩ [(⟨"/a"⟩, ⟨"", 1⟩)] ∧
    snapshot ⟨⟨[], [], "/"⟩, [(⟨"/a"⟩, ⟨"", 1⟩)]⟩ {} ⟨"/a/b.tex"⟩
      = .unread ⟨"/a/b.tex"⟩ .missing ∧
    snapshot ⟨Disk.save ⟨[], [], "/"⟩ [(⟨"/a"⟩, ⟨"", 1⟩)], []⟩ {} ⟨"/a/b.tex"⟩
      = .unread ⟨"/a/b.tex"⟩ .notDirectory ∧
    Sources.master ⟨⟨[], [], "/"⟩, [(⟨"/a"⟩, ⟨"", 1⟩)]⟩ { master := some "/../a" } ⟨"/s.tex"⟩
      = .error (.notFound "configured master `/../a`") ∧
    Sources.master ⟨Disk.save ⟨[], [], "/"⟩ [(⟨"/a"⟩, ⟨"", 1⟩)], []⟩ { master := some "/../a" }
      ⟨"/s.tex"⟩ = .ok ⟨"/../a"⟩ ∧
    (snapshot ⟨⟨[], [], "/"⟩, [(⟨"/a"⟩, ⟨"", 1⟩)]⟩ {} ⟨"/a/"⟩).isBuilt = true ∧
    (snapshot ⟨Disk.save ⟨[], [], "/"⟩ [(⟨"/a"⟩, ⟨"", 1⟩)], []⟩ {} ⟨"/a/"⟩).isBuilt = false := by
  refine ⟨?_, by decide, by decide, by decide, by decide, by decide, by decide⟩
  refine ⟨rfl, by decide, ?_, by decide, ?_, by decide⟩
  · intro e he
    obtain rfl := List.mem_singleton.mp he
    exact ⟨by decide, by decide, by decide⟩
  · intro e he above habove hne bytes hfile
    obtain ⟨node, hentry⟩ := Disk.exists_entry_of_file hfile
    cases hentry

end Sources

end LatexIndex
