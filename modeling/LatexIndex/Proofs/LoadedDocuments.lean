/-
LatexIndex/Proofs/LoadedDocuments.lean

Keeping what was read does not change where a climb leads.

A climb reads each document once and finds it again by the parts of its path.
The search is told here without that: `container?` reads every document where
it needs it.  The two agree because a listed path either has a buffer or is
plainly written (`Listed`), so that the document found under other writing of
a path is the one that would be read there, up to the writing
(`contents_loadedAt?`), and neither a document class nor an inclusion depends
on the writing.  So each step of a climb leads to the same document
(`found_seekContainer`), and what it has read remains as it would be read now
(`Holds`).
-/
import Mathlib.Data.List.Find
import LatexIndex.Proofs.Ancestors
import LatexIndex.Proofs.Lookup
import LatexIndex.Proofs.PathOrder
import LatexIndex.Project.Master

namespace LatexIndex.Sources

open Markup

variable {sources : Sources} {settings : Settings} {p q root target current directory : Path}
  {paths : List Path} {loaded : List Document} {d e : Document}

/-! ### The search without what was read -/

/-- Whether the document at a path can be read and includes `target`. -/
def containsPath (sources : Sources) (target root candidate : Path) : Bool :=
  match sources.load candidate with
  | .ok document => sources.includesPath document target root
  | .error _ => false

/-- The smallest document that includes the current one. -/
def container? (sources : Sources) (settings : Settings) (current : Path) : Option Path := do
  let (root, level) ← sources.searchRoot? settings current
  (sources.candidates root (level + 3)).find? fun candidate =>
    !candidate.same current && sources.containsPath current root candidate

theorem container?_of_searchRoot?_none (h : sources.searchRoot? settings p = none) :
    sources.container? settings p = none := by
  rw [container?, h]
  rfl

theorem container?_of_searchRoot? {level : Nat}
    (h : sources.searchRoot? settings p = some (root, level)) :
    sources.container? settings p = (sources.candidates root (level + 3)).find? fun candidate =>
      !candidate.same p && sources.containsPath p root candidate := by
  rw [container?, h]
  rfl

/-! ### One document under two paths -/

/-- What of a document does not depend on how its path is written. -/
def contents (d : Document) : List Part × Scan :=
  (d.path.parts, d.scan)

/-- A path as the listings of directories and buffers have them. -/
def Listed (sources : Sources) (p : Path) : Prop :=
  (sources.buffers.find? p).isSome = true ∨ p = Path.ofParts p.parts

theorem listed_of_mem_candidates {depth : Nat} (h : p ∈ sources.candidates root depth) :
    sources.Listed p := by
  rcases List.mem_append.mp (Path.mem_of_mem_sorted h) with hdisk | hbuffer
  · obtain ⟨file, -, rfl⟩ := List.mem_map.mp hdisk
    right
    rw [Path.parts_normalize]
    rfl
  · obtain ⟨entry, hentry, rfl⟩ := List.mem_map.mp (List.mem_filter.mp hbuffer).1
    left
    rw [Buffers.find?, Option.isSome_map, List.find?_isSome]
    exact ⟨entry, hentry, Path.same_refl _⟩

/-- A listed path can be read if it can be read in another writing. -/
theorem exists_load_of_listed (hp : sources.Listed p) (hq : sources.Listed q)
    (h : p.parts = q.parts) (hd : sources.load p = .ok d) : ∃ e, sources.load q = .ok e := by
  rcases hq with hbuffer | hq
  · exact loads_iff.mp (.inl hbuffer)
  · rcases hp with hbuffer | hp
    · rw [find?_congr sources.buffers h] at hbuffer
      exact loads_iff.mp (.inl hbuffer)
    · -- no buffer is needed, and both are written in the one plain way
      obtain rfl : p = q := hp.trans ((congrArg Path.ofParts h).trans hq.symm)
      exact ⟨d, hd⟩

theorem forall₂_climbBases (h : p.parts = q.parts) (root : Path) :
    List.Forall₂ (fun a b => a.parts = b.parts) (climbBases p root) (climbBases q root) := by
  have hup : ∀ a b a' b' : Path, a.parts = b.parts → a.parent? = some a' → b.parent? = some b' →
      a'.parts = b'.parts := by
    intro a b a' b' hab ha hb
    rw [Path.parts_of_parent? ha, Path.parts_of_parent? hb, hab]
  have habove := Path.ancestors_congr id hup (Path.parts_directory_congr h)
  unfold climbBases
  generalize p.directory.ancestors = as at habove ⊢
  generalize q.directory.ancestors = bs at habove ⊢
  induction habove with
  | nil => exact .nil
  | cons hab _ ih =>
      rw [List.takeWhile_cons, List.takeWhile_cons, Path.startsWith, Path.startsWith, hab]
      split
      · exact .cons hab ih
      · exact .nil

/-- Whether a document includes a file does not depend on how its path is
written. -/
theorem includesPath_congr (h : contents d = contents e) :
    sources.includesPath d target root = sources.includesPath e target root := by
  obtain ⟨hparts, hscan⟩ := Prod.mk.inj h
  have hbases := forall₂_climbBases hparts root
  simp only [includesPath, hscan, resolve?_congr_bases sources hbases]

/-! ### What has been read -/

/-- Every document that was read is as it would be read now, at a listed
path. -/
def Holds (sources : Sources) (loaded : List Document) : Prop :=
  ∀ d ∈ loaded, sources.Listed d.path ∧ sources.load d.path = .ok d

theorem holds_nil (sources : Sources) : sources.Holds [] :=
  fun _ hd => absurd hd List.not_mem_nil

theorem Holds.loadMissing (h : sources.Holds loaded) (hpaths : ∀ p ∈ paths, sources.Listed p) :
    sources.Holds (sources.loadMissing paths loaded) := by
  intro d hd
  rcases List.mem_append.mp hd with hd | hd
  · exact h d hd
  · obtain ⟨p, hp, hread⟩ := List.mem_filterMap.mp hd
    rcases hload : sources.load p with failure | e
    · rw [hload] at hread
      cases hread
    · rw [hload] at hread
      obtain rfl : e = d := Option.some.inj hread
      obtain rfl : e.path = p := path_of_load hload
      exact ⟨hpaths _ (List.mem_of_mem_filter hp), hload⟩

/-- **What was read is what would be read**, up to the writing of paths: among
the documents that were read, a path for which all was done to read it leads to
what is read there, or to nothing. -/
theorem contents_loadedAt? (h : sources.Holds loaded) (hpaths : ∀ p ∈ paths, sources.Listed p)
    (hp : p ∈ paths) :
    (loadedAt? (sources.loadMissing paths loaded) p).map contents =
      (sources.load p).toOption.map contents := by
  rcases hfound : loadedAt? (sources.loadMissing paths loaded) p with - | d
  · rcases hload : sources.load p with failure | e
    · rfl
    · -- had it been missing, it would have been read
      exfalso
      have hpath : e.path = p := path_of_load hload
      rw [loadedAt?, List.find?_eq_none] at hfound
      have hmissing : (loadedAt? loaded p).isNone = true := by
        rw [Option.isNone_iff_eq_none, loadedAt?, List.find?_eq_none]
        exact fun x hx => hfound x (List.mem_append_left _ hx)
      refine hfound e (List.mem_append_right _ (List.mem_filterMap.mpr ⟨p, ?_, ?_⟩)) ?_
      · exact List.mem_filter.mpr ⟨hp, hmissing⟩
      · rw [hload]
        rfl
      · rw [hpath]
        exact Path.same_refl p
  · obtain ⟨hlisted, hload⟩ := h.loadMissing hpaths d (List.mem_of_find?_eq_some hfound)
    have hsame := List.find?_some hfound
    have hparts : d.path.parts = p.parts := Path.same_iff.mp hsame
    obtain ⟨e, he⟩ := exists_load_of_listed hlisted (hpaths p hp) hparts hload
    rw [he]
    show some (d.path.parts, d.scan) = some (e.path.parts, e.scan)
    rw [load_congr hparts hload he, hparts, path_of_load he]

theorem any_eq_of_contents {found read : Option Document} {f : Document → Bool}
    (hf : ∀ d e, contents d = contents e → f d = f e)
    (h : found.map contents = read.map contents) : found.any f = read.any f := by
  rcases found with - | d
  · rw [Option.map_none, eq_comm, Option.map_eq_none_iff] at h
    rw [h]
  · obtain ⟨e, rfl, he⟩ := Option.map_eq_some_iff.mp h.symm
    exact hf d e he.symm

theorem declaresRoot_eq (sources : Sources) (p : Path) :
    sources.declaresRoot p = (sources.load p).toOption.any (·.scan.declaresRoot) := by
  rw [declaresRoot]
  rcases sources.load p with failure | d <;> rfl

theorem containsPath_eq_any (sources : Sources) (target root p : Path) :
    sources.containsPath target root p =
      (sources.load p).toOption.any (sources.includesPath · target root) := by
  rw [containsPath]
  rcases sources.load p with failure | d <;> rfl

theorem declaresRoot_loadedAt? (h : sources.Holds loaded)
    (hpaths : ∀ p ∈ paths, sources.Listed p) (hp : p ∈ paths) :
    (loadedAt? (sources.loadMissing paths loaded) p).any (·.scan.declaresRoot) =
      sources.declaresRoot p := by
  rw [declaresRoot_eq]
  refine any_eq_of_contents (fun d e hde => ?_) (contents_loadedAt? h hpaths hp)
  rw [(Prod.mk.inj hde).2]

/-! ### Seeking -/

theorem seekRoot_eq (h : sources.Holds loaded) (directory : Path) :
    (sources.seekRoot directory loaded).1 = sources.holdsRoot directory ∧
      sources.Holds (sources.seekRoot directory loaded).2 := by
  have hlisted : ∀ p ∈ sources.candidates directory 1, sources.Listed p :=
    fun _ => listed_of_mem_candidates
  refine ⟨?_, h.loadMissing hlisted⟩
  rw [holdsRoot, Bool.eq_iff_iff, List.any_eq_true]
  show List.any _ _ = true ↔ _
  rw [List.any_eq_true]
  refine exists_congr fun p => and_congr_right fun hp => ?_
  rw [declaresRoot_loadedAt? h hlisted hp]

theorem seekRootLevel_eq (h : sources.Holds loaded) (above : List Path) :
    (sources.seekRootLevel above loaded).1 = above.findIdx? sources.holdsRoot ∧
      sources.Holds (sources.seekRootLevel above loaded).2 := by
  induction above generalizing loaded with
  | nil => exact ⟨rfl, h⟩
  | cons directory above ih =>
      obtain ⟨hroot, hholds⟩ := seekRoot_eq h directory
      rcases hseek : sources.seekRoot directory loaded with ⟨holds, loaded'⟩
      rw [hseek] at hroot hholds
      rw [seekRootLevel, hseek, List.findIdx?_cons, ← hroot]
      cases holds with
      | true => exact ⟨rfl, hholds⟩
      | false =>
          obtain ⟨hlevel, hrest⟩ := ih hholds
          exact ⟨congrArg (Option.map (· + 1)) hlevel, hrest⟩

/-- The document that a step leads to is the one sought, and what was read then
shows whether it has a document class. -/
structure Found (sources : Sources) (result : Option Path × List Document)
    (sought : Option Path) : Prop where
  path : result.1 = sought
  holds : sources.Holds result.2
  root : ∀ c, sought = some c →
    (loadedAt? result.2 c).any (·.scan.declaresRoot) = sources.declaresRoot c

theorem found_seekIncluder (h : sources.Holds loaded) (current root : Path) (depth : Nat) :
    sources.Found (sources.seekIncluder current root depth loaded)
      ((sources.candidates root depth).find? fun candidate =>
        !candidate.same current && sources.containsPath current root candidate) := by
  have hlisted : ∀ p ∈ sources.candidates root depth, sources.Listed p :=
    fun _ => listed_of_mem_candidates
  refine ⟨?_, h.loadMissing hlisted, fun c hc => ?_⟩
  · refine List.find?_congr fun c hc => ?_
    rw [containsPath_eq_any,
      any_eq_of_contents (fun d e => includesPath_congr) (contents_loadedAt? h hlisted hc)]
  · exact declaresRoot_loadedAt? h hlisted (List.mem_of_find?_eq_some hc)

/-- **A step of a climb** leads to the document that includes the current
one. -/
theorem found_seekContainer (h : sources.Holds loaded) (settings : Settings) (current : Path) :
    sources.Found (sources.seekContainer settings current loaded)
      (sources.container? settings current) := by
  obtain ⟨hlevel, hholds⟩ :=
    seekRootLevel_eq h (current.directory.ancestors.take rootSearchLimit)
  rcases hseek : sources.seekRootLevel (current.directory.ancestors.take rootSearchLimit) loaded
    with ⟨withRoot, loaded'⟩
  rw [hseek] at hlevel hholds
  have hroot := searchRoot?.eq_1 sources settings current
  dsimp only at hlevel hroot
  rw [← hlevel] at hroot
  unfold seekContainer
  dsimp only
  rw [hseek]
  dsimp only
  generalize searchLevel settings _ withRoot = level at hroot ⊢
  rcases hat : (current.directory.ancestors.take rootSearchLimit)[level]? with - | root
  · rw [hat, Option.map_none] at hroot
    rw [container?_of_searchRoot?_none hroot]
    exact ⟨rfl, hholds, fun c hc => by cases hc⟩
  · rw [hat, Option.map_some] at hroot
    rw [container?_of_searchRoot? hroot]
    exact found_seekIncluder hholds current root (level + 3)

end LatexIndex.Sources
