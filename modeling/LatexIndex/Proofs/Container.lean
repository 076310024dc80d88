/-
LatexIndex/Proofs/Container.lean

What the search for an includer depends on.

Which documents are listed below a directory, which of the directories above a
document is the search root, and which document includes another one depend on
the parts of paths and not on how they are written, as long as no text is too
long (`container?_congr`).  So climbing from document to document follows a
function of the parts; the documents it can pass are those of `Passes`, and all
of them can be read (`met_of_reflTransGen`).
-/
import Mathlib.Logic.Relation
import LatexIndex.Proofs.SavedMaster
import LatexIndex.Proofs.Spelling

namespace LatexIndex

open Relation

namespace Sources

variable {sources : Sources} {settings : Settings} {p q a b c : Path} {d : Document}

/-! ### Listing one directory in two ways -/

theorem parts_foldl_join_congr (h : a.parts = b.parts) (way : Place) :
    (way.foldl Path.join a).parts = (way.foldl Path.join b).parts := by
  induction way generalizing a b with
  | nil => exact h
  | cons n way ih => exact ih (Path.parts_join_congr h n)

theorem filesUnder_congr (disk : Disk) (h : Path.Respelled a b) (depth : Nat) :
    List.Forall₂ (fun p q => p.parts = q.parts) (disk.filesUnder a depth)
      (disk.filesUnder b depth) := by
  unfold Disk.filesUnder
  rw [disk.lookUp_congr_of_respelled h]
  split
  · exact .nil
  · exact .cons h.parts .nil
  · rw [List.forall₂_map_left_iff, List.forall₂_map_right_iff]
    exact List.forall₂_same.mpr fun way _ => parts_foldl_join_congr h.parts way

/-- The documents among some files, plainly written. -/
def texFiles (files : List Path) : List Path :=
  (files.filter isTex).map Path.normalize

/-- The documents among the open buffers at most `depth` levels below a
directory. -/
def texBuffers (sources : Sources) (root : Path) (depth : Nat) : List Path :=
  (sources.buffers.map (·.1)).filter fun path =>
    isTex path && match path.depthBelow? root with
      | some below => below ≤ depth
      | none => false

theorem candidates_eq (sources : Sources) (root : Path) (depth : Nat) :
    sources.candidates root depth =
      Path.sorted (texFiles (sources.disk.filesUnder root depth) ++
        sources.texBuffers root depth) :=
  rfl

theorem texFiles_congr {as bs : List Path}
    (h : List.Forall₂ (fun p q => p.parts = q.parts) as bs) : texFiles as = texFiles bs := by
  induction h with
  | nil => rfl
  | cons hab _ ih =>
      simp only [texFiles, List.filter_cons, isTex_congr hab] at ih ⊢
      split
      · rw [List.map_cons, List.map_cons, ih, Path.normalize_congr hab]
      · exact ih

theorem texBuffers_congr (sources : Sources) (h : a.parts = b.parts) (depth : Nat) :
    sources.texBuffers a depth = sources.texBuffers b depth := by
  have hbelow : ∀ path : Path, path.depthBelow? a = path.depthBelow? b := by
    intro path
    rw [Path.depthBelow?, Path.depthBelow?, Path.startsWith, Path.startsWith, h]
  simp only [texBuffers, hbelow]

theorem candidates_congr (h : Path.Respelled a b) (depth : Nat) :
    sources.candidates a depth = sources.candidates b depth := by
  rw [candidates_eq, candidates_eq, texFiles_congr (filesUnder_congr sources.disk h depth),
    texBuffers_congr sources h.parts]

theorem holdsRoot_congr (h : Path.Respelled a b) :
    sources.holdsRoot a = sources.holdsRoot b := by
  rw [holdsRoot, holdsRoot, candidates_congr h]

theorem findIdx?_holdsRoot_congr {as bs : List Path} (h : List.Forall₂ Path.Respelled as bs) :
    as.findIdx? sources.holdsRoot = bs.findIdx? sources.holdsRoot := by
  induction h with
  | nil => rfl
  | cons hab _ ih => rw [List.findIdx?_cons, List.findIdx?_cons, holdsRoot_congr hab, ih]

/-- Searches that begin in one directory, written in two ways, have one search
root. -/
theorem searchRoot?_congr (sources : Sources) (settings : Settings)
    (h : Path.Respelled p.directory q.directory) :
    sources.searchRoot? settings p = none ∧ sources.searchRoot? settings q = none ∨
      ∃ a b level, sources.searchRoot? settings p = some (a, level) ∧
        sources.searchRoot? settings q = some (b, level) ∧ Path.Respelled a b := by
  have hancestors := List.forall₂_take rootSearchLimit h.ancestors
  rw [searchRoot?, searchRoot?, findIdx?_holdsRoot_congr hancestors, hancestors.length_eq]
  generalize searchLevel settings _ _ = level
  generalize p.directory.ancestors.take rootSearchLimit = as at hancestors
  generalize q.directory.ancestors.take rootSearchLimit = bs at hancestors
  rcases ha : as[level]? with - | a
  · left
    rw [List.getElem?_eq_none_iff, hancestors.length_eq, ← List.getElem?_eq_none_iff] at ha
    rw [ha]
    exact ⟨rfl, rfl⟩
  · right
    obtain ⟨hlt, rfl⟩ := List.getElem?_eq_some_iff.mp ha
    have hlt' : level < bs.length := hancestors.length_eq ▸ hlt
    refine ⟨as[level], bs[level], level, rfl, ?_, hancestors.get hlt hlt'⟩
    rw [List.getElem?_eq_getElem hlt']
    rfl

theorem climbBases_congr (h : a.parts = b.parts) : climbBases c a = climbBases c b := by
  simp only [climbBases, Path.startsWith, h]

theorem containsPath_congr (hpq : p.parts = q.parts) (hab : a.parts = b.parts) :
    sources.containsPath p a c = sources.containsPath q b c := by
  simp only [containsPath, includesPath, climbBases_congr hab, Path.same, hpq]

/-- **The document that includes another is determined by the parts of its
path**, as long as no text is too long. -/
theorem container?_congr (sources : Sources) (settings : Settings) (hp : p.Spelled)
    (hq : q.Spelled) (h : p.parts = q.parts) :
    sources.container? settings p = sources.container? settings q := by
  rcases hp.eq_or_short hq h with rfl | ⟨hps, hqs⟩
  · rfl
  rcases sources.searchRoot?_congr settings (Path.respelled_directory h hps hqs) with
    ⟨hpr, hqr⟩ | ⟨x, y, level, hpr, hqr, hxy⟩
  · rw [container?_of_searchRoot?_none hpr, container?_of_searchRoot?_none hqr]
  · have htest : (fun candidate : Path => !candidate.same p && sources.containsPath p x candidate)
        = fun candidate => !candidate.same q && sources.containsPath q y candidate := by
      funext candidate
      rw [containsPath_congr h hxy.parts, Path.same, Path.same, h]
    rw [container?_of_searchRoot? hpr, htest, candidates_congr hxy,
      ← container?_of_searchRoot? hqr]

/-! ### The documents on the way -/

/-- A climb goes on from `p`, and to `q`. -/
def Passes (sources : Sources) (settings : Settings) (p q : Path) : Prop :=
  sources.declaresRoot p = false ∧ sources.Ascends settings p q

theorem passes_rightUnique (sources : Sources) (settings : Settings) :
    Relator.RightUnique (sources.Passes settings) := by
  intro p q q' hq hq'
  exact Option.some.inj (hq.2.symm.trans hq'.2)

/-- A document that a climb may pass: it can be read, and its path is not too
long. -/
def Met (sources : Sources) (p : Path) : Prop :=
  p.Spelled ∧ ∃ d, sources.load p = .ok d

theorem declaresRoot_of_load (h : sources.load p = .ok d) :
    sources.declaresRoot p = d.scan.declaresRoot := by
  rw [declaresRoot, h]

theorem declaresRoot_congr (hp : sources.Met p) (hq : sources.Met q) (h : p.parts = q.parts) :
    sources.declaresRoot p = sources.declaresRoot q := by
  obtain ⟨-, d, hd⟩ := hp
  obtain ⟨-, d', hd'⟩ := hq
  rw [declaresRoot_of_load hd, declaresRoot_of_load hd', load_congr h hd hd']

theorem Passes.congr (hp : sources.Met p) (hq : sources.Met q) (h : p.parts = q.parts)
    (hc : sources.Passes settings p c) : sources.Passes settings q c := by
  refine ⟨?_, ?_⟩
  · rw [← declaresRoot_congr hp hq h]
    exact hc.1
  · rw [Ascends, ← container?_congr sources settings hp.1 hq.1 h]
    exact hc.2

theorem spelled_normalize (p : Path) : p.normalize.Spelled := by
  left
  rw [Path.parts_normalize]
  rfl

/-- A step of a climb leads to a document that can be read. -/
theorem met_of_ascends (hkeys : ∀ e ∈ sources.buffers, e.1.Spelled)
    (h : sources.Ascends settings p c) : sources.Met c := by
  obtain ⟨root, level, hroot, hmem, -⟩ := exists_of_container? h
  constructor
  · rcases List.mem_append.mp (Path.mem_of_mem_sorted hmem) with hdisk | hbuffer
    · obtain ⟨file, -, rfl⟩ := List.mem_map.mp hdisk
      exact spelled_normalize file
    · obtain ⟨e, he, rfl⟩ := List.mem_map.mp (List.mem_filter.mp hbuffer).1
      exact hkeys e he
  · rw [Ascends, container?_of_searchRoot? hroot] at h
    have htest := List.find?_some h
    rw [Bool.and_eq_true, containsPath] at htest
    rcases hload : sources.load c with failure | d
    · rw [hload] at htest
      cases htest.2
    · exact ⟨d, rfl⟩

theorem met_of_reflTransGen (hkeys : ∀ e ∈ sources.buffers, e.1.Spelled) (hp : sources.Met p)
    (h : ReflTransGen (sources.Passes settings) p c) : sources.Met c := by
  rcases h.cases_tail with rfl | ⟨b, -, hbc⟩
  · exact hp
  · exact met_of_ascends hkeys hbc.2

end Sources

end LatexIndex
