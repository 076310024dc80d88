/-
LatexIndex/Proofs/Ancestors.lean

Going up from a path.

The path above another has its parts but the last (`parts_of_parent?`), and only
the root and the empty path have nothing above them (`parent?_eq_none_iff`).
So the directories above a path are determined by its parts, however it is
written (`ancestors_congr`), and going up until a directory is passed ends at
that directory (`takeWhile_ancestors`).
-/
import LatexIndex.Files.Sources
import LatexIndex.Proofs.PathParts

namespace LatexIndex.Path

open Text

variable {p q root : Path}

/-! ### The path above -/

theorem filterMap_body_eq_nil_iff (p : Path) : p.body.filterMap partOf? = [] ↔ p.body = [] := by
  constructor
  · intro h
    rcases List.eq_nil_or_concat' p.body with hb | ⟨init, last, hb⟩
    · exact hb
    · -- the last segment of a body stands for a part
      have hlast : isIdle last = false := isIdle_last_of_trimIdle hb
      rw [hb, List.filterMap_append, List.append_eq_nil_iff] at h
      have hnone : partOf? last = none := by
        rcases hpart : partOf? last with - | x
        · rfl
        · rw [List.filterMap_cons_some hpart] at h
          cases h.2
      rw [partOf?_eq_none_iff.mp hnone] at hlast
      cases hlast
  · intro h
    rw [h]
    rfl

/-- Only the root and the empty path have nothing above them. -/
theorem parent?_eq_none_iff (p : Path) :
    p.parent? = none ↔ p.parts = [] ∨ p.parts = [.root] := by
  have hlead : p.isAbsolute = true ∨ p.headLength = 0 ↔
      leadOf p.segments = [] ∨ leadOf p.segments = [.root] := by
    rw [headLength_eq, List.length_eq_zero_iff, isAbsolute_iff]
    unfold leadOf
    grind
  rw [parts_eq_body, parent?]
  by_cases hb : p.body = []
  · rw [hb, List.isEmpty_nil, if_pos rfl, List.filterMap_nil, List.append_nil, ← hlead]
    by_cases h : p.isAbsolute = true ∨ p.headLength = 0
    · simp [h]
    · simp [h]
  · have hne : p.body.filterMap partOf? ≠ [] := mt (filterMap_body_eq_nil_iff p).mp hb
    rw [if_neg (by simpa using hb)]
    simp only [reduceCtorEq, false_iff, not_or]
    constructor
    · simp [hne]
    · intro heq
      -- no segment of the body stands for the root
      obtain ⟨x, rest, hbody⟩ := List.exists_cons_of_ne_nil hne
      have hx : x ∈ p.body.filterMap partOf? := by simp [hbody]
      obtain ⟨s, -, hs⟩ := List.mem_filterMap.mp hx
      rw [hbody] at heq
      rcases List.append_eq_singleton_iff.mp heq with ⟨-, hroot⟩ | ⟨-, hnil⟩
      · obtain ⟨rfl, -⟩ := List.cons.inj hroot
        exact partOf?_ne_root s hs
      · cases hnil

theorem parts_of_parent? (h : p.parent? = some q) : q.parts = p.parts.dropLast := by
  have hdirectory := parts_directory p
  rw [directory, h, Option.getD_some, directoryParts, if_neg] at hdirectory
  · exact hdirectory
  · rw [← parent?_eq_none_iff, h]
    simp

theorem exists_parent? (h : p.parts ≠ []) (hroot : p.parts ≠ [.root]) :
    ∃ q, p.parent? = some q ∧ q.parts = p.parts.dropLast := by
  rcases hp : p.parent? with - | q
  · exact absurd ((parent?_eq_none_iff p).mp hp) (by simp [h, hroot])
  · exact ⟨q, rfl, parts_of_parent? hp⟩

theorem parent?_congr (h : p.parts = q.parts) :
    p.parent? = none ∧ q.parent? = none ∨
      ∃ p' q', p.parent? = some p' ∧ q.parent? = some q' := by
  rcases hp : p.parent? with - | p'
  · have hq := (parent?_eq_none_iff p).mp hp
    rw [h, ← parent?_eq_none_iff] at hq
    exact .inl ⟨rfl, hq⟩
  · rcases hq : q.parent? with - | q'
    · have hnone := (parent?_eq_none_iff q).mp hq
      rw [← h, ← parent?_eq_none_iff, hp] at hnone
      cases hnone
    · exact .inr ⟨p', q', rfl, rfl⟩

/-! ### All paths above -/

/-- There are no more parts than segments. -/
theorem length_parts_le (p : Path) : p.parts.length ≤ p.segments.length := by
  have hlead : (leadOf p.segments).length = p.headLength := (headLength_eq p).symm
  have hhead : p.headLength ≤ p.segments.length := by
    have hpos : 0 < p.segments.length := List.length_pos_iff.mpr (segments_ne_nil p)
    rw [headLength]
    split <;> omega
  have hbody : p.body.length ≤ p.segments.length - p.headLength := by
    have hle := (trimIdle_begins (p.segments.drop p.headLength)).length_le
    rwa [List.length_drop] at hle
  have hfilter := List.length_filterMap_le partOf? p.body
  rw [parts_eq_body, List.length_append]
  omega

section

variable {r : Path → Path → Prop} (hparts : ∀ {a b}, r a b → a.parts = b.parts)
  (hup : ∀ a b a' b', r a b → a.parent? = some a' → b.parent? = some b' → r a' b')

include hparts hup

theorem ancestorsUpTo_congr {n m : Nat} (h : r p q) (hn : p.parts.length ≤ n)
    (hm : q.parts.length ≤ m) :
    List.Forall₂ r (ancestorsUpTo n p) (ancestorsUpTo m q) := by
  induction n generalizing p q m with
  | zero =>
      -- no parts are left, so nothing is above either
      have hp : p.parts = [] := List.eq_nil_of_length_eq_zero (by omega)
      have hq : q.parent? = none := (parent?_eq_none_iff q).mpr (.inl (hparts h ▸ hp))
      cases m <;> simp [ancestorsUpTo, hq, h]
  | succ n ih =>
      rcases parent?_congr (hparts h) with ⟨hp, hq⟩ | ⟨p', q', hp, hq⟩
      · cases m <;> simp [ancestorsUpTo, hp, hq, h]
      · have hlength : q.parts.length ≠ 0 := by
          intro hzero
          have hnone := (parent?_eq_none_iff q).mpr (.inl (List.eq_nil_of_length_eq_zero hzero))
          rw [hq] at hnone
          cases hnone
        obtain ⟨m, rfl⟩ := Nat.exists_eq_succ_of_ne_zero (n := m) (by omega)
        have hp' := congrArg List.length (parts_of_parent? hp)
        have hq' := congrArg List.length (parts_of_parent? hq)
        rw [List.length_dropLast] at hp' hq'
        rw [ancestorsUpTo, ancestorsUpTo, hp, hq]
        exact .cons h (ih (hup p q p' q' h hp hq) (by omega) (by omega))

/-- Above one path written in two ways are the same paths, written in two
ways, and whatever else going up keeps is so of each of them. -/
theorem ancestors_congr (h : r p q) : List.Forall₂ r p.ancestors q.ancestors :=
  ancestorsUpTo_congr hparts hup h (length_parts_le p) (length_parts_le q)

end

/-! ### Up to a directory -/

theorem startsWith_iff : p.startsWith root = true ↔ root.parts <+: p.parts := by
  rw [startsWith, List.isPrefixOf_iff_prefix]

theorem takeWhile_ancestorsUpTo {n : Nat} (hroot : root.parts ≠ []) (hn : p.parts.length ≤ n)
    (h : root.parts <+: p.parts) :
    ∃ nearer last, (ancestorsUpTo n p).takeWhile (·.startsWith root) = nearer ++ [last] ∧
      last.parts = root.parts ∧ ∀ a ∈ nearer, a.parts ≠ root.parts := by
  induction n generalizing p with
  | zero =>
      have hp : p.parts = [] := List.eq_nil_of_length_eq_zero (by omega)
      rw [hp] at h
      exact absurd (List.prefix_nil.mp h) hroot
  | succ n ih =>
      rw [ancestorsUpTo, List.takeWhile_cons, if_pos (startsWith_iff.mpr h)]
      by_cases hsame : p.parts = root.parts
      · -- the directory is reached, and what is above it does not begin so
        refine ⟨[], p, ?_, hsame, by simp⟩
        rcases hp : p.parent? with - | q
        · rfl
        · have hshort : ¬ root.parts <+: q.parts := by
            intro hbegins
            have hle := hbegins.length_le
            have hpos := List.length_pos_iff.mpr hroot
            rw [parts_of_parent? hp, hsame, List.length_dropLast] at hle
            omega
          cases n <;> simp [ancestorsUpTo, startsWith_iff, hshort]
      · obtain ⟨rest, hrest⟩ := h
        have hrest' : rest ≠ [] := by
          rintro rfl
          exact hsame (by simpa using hrest.symm)
        have hlong : 2 ≤ p.parts.length := by
          have h1 := List.length_pos_iff.mpr hroot
          have h2 := List.length_pos_iff.mpr hrest'
          rw [← hrest, List.length_append]
          omega
        obtain ⟨q, hp, hq⟩ := exists_parent? (p := p) (by grind) (by grind)
        have hbegins : root.parts <+: q.parts := by
          rw [hq, ← hrest, List.dropLast_append_of_ne_nil hrest']
          exact List.prefix_append _ _
        obtain ⟨nearer, last, htake, hlast, hnearer⟩ :=
          ih (p := q) (by rw [hq, List.length_dropLast]; omega) hbegins
        refine ⟨p :: nearer, last, ?_, hlast, ?_⟩
        · rw [hp, htake, List.cons_append]
        · rintro a (- | ⟨-, ha⟩)
          · exact hsame
          · exact hnearer a ha

/-- Going up from a path below a directory comes to that directory last. -/
theorem takeWhile_ancestors (hroot : root.parts ≠ []) (h : p.startsWith root = true) :
    ∃ nearer last, p.ancestors.takeWhile (·.startsWith root) = nearer ++ [last] ∧
      last.parts = root.parts ∧ ∀ a ∈ nearer, a.parts ≠ root.parts :=
  takeWhile_ancestorsUpTo hroot (length_parts_le p) (startsWith_iff.mp h)

theorem head?_ancestors (p : Path) : p.ancestors.head? = some p := by
  rw [ancestors]
  cases p.segments.length <;> rfl

/-! ### Names seen from directories -/

theorem candidates_congr {as bs : List Path}
    (h : List.Forall₂ (fun a b => a.parts = b.parts) as bs) (name extension : String) :
    candidates name as extension = candidates name bs extension := by
  induction h with
  | nil => rfl
  | cons hab _ ih =>
      simp only [candidates, List.map_cons] at ih ⊢
      rw [ih, normalize_congr (parts_join_congr hab _)]

end LatexIndex.Path

namespace LatexIndex.Sources

/-- A name stands for one file, however the directories it is seen from are
written. -/
theorem resolve?_congr_bases (sources : Sources) {as bs : List Path}
    (h : List.Forall₂ (fun a b => a.parts = b.parts) as bs) (name extension : String) :
    sources.resolve? name as extension = sources.resolve? name bs extension := by
  rw [resolve?, resolve?, Path.candidates_congr h]

theorem resolve?_append (sources : Sources) (name : String) (as bs : List Path)
    (extension : String) :
    sources.resolve? name (as ++ bs) extension =
      (sources.resolve? name as extension).or (sources.resolve? name bs extension) := by
  simp only [resolve?, Path.candidates, List.map_append, List.find?_append]

end LatexIndex.Sources
