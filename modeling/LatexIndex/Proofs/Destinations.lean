/-
LatexIndex/Proofs/Destinations.lean

Where a path leads after it has been normalised.

Walking the parts of a path goes some levels above the place where it starts, as
many as the path `climbs`, and then down some names.  Normalising keeps the names,
but not the climbs: a `..` with nothing before it stays, and the next one takes it
away again, so that of all the levels climbed at most one is left
(`exists_names_after`).  From the root nothing can be climbed, and an absolute path
leads where it led.  A relative path does so exactly if it climbs one level at most
or starts so near the root that the levels it has lost make no difference.
-/
import Mathlib.Data.List.DropRight
import LatexIndex.Proofs.PlainPaths

namespace LatexIndex.Path

open Disk

variable {parts : List Part} {names : List String} {place : Place} {k : Nat} {p : Path}

/-- How many levels above its start a list of parts goes at most. -/
def climbs : List Part → Nat
  | [] => 0
  | .up :: more => climbs more + 1
  | .name _ :: more => climbs more - 1
  | .here :: more => climbs more
  | .root :: more => climbs more

/-- What normalising holds, last part first, after `k` levels were climbed and
then `names` gone down. -/
def held (k : Nat) (names : List String) : List Part :=
  (names.map .name).reverse ++ List.replicate (k % 2) .up

/-! ### Steps -/

theorem normalStep_held_name (k : Nat) (names : List String) (n : String) :
    normalStep (held k names) (.name n) = held k (names ++ [n]) := by
  simp [held, normalStep]

/-- A `..` takes away the last name. -/
theorem normalStep_held_up_concat (k : Nat) (names : List String) (n : String) :
    normalStep (held k (names ++ [n])) .up = held k names := by
  simp [held, normalStep]

/-- Where there is no name, every other `..` is lost. -/
theorem normalStep_held_up (k : Nat) : normalStep (held k []) .up = held (k + 1) [] := by
  rcases Nat.mod_two_eq_zero_or_one k with h | h
  · have hnext : (k + 1) % 2 = 1 := by omega
    simp [held, h, hnext, normalStep]
  · have hnext : (k + 1) % 2 = 0 := by omega
    simp [held, h, hnext, normalStep]

theorem dropLast_rdrop (place : Place) (k : Nat) :
    (place.rdrop k).dropLast = place.rdrop (k + 1) := by
  rw [List.rdrop, List.rdrop, List.dropLast_eq_take, List.length_take, List.take_take]
  congr 1
  omega

/-! ### Walks -/

/-- **What is left of a path.**  Both ways of reading it end with the same names;
but where walking goes up for every level climbed, normalising remembers only
whether their number was odd. -/
theorem exists_names_after (hroot : .root ∉ parts) (k : Nat) (names : List String) :
    ∃ left, parts.foldl normalStep (held k names)
        = held (k + (climbs parts - names.length)) left ∧
      ∀ place : Place, walk (place.rdrop k ++ names) parts
        = place.rdrop (k + (climbs parts - names.length)) ++ left := by
  induction parts generalizing k names with
  | nil => exact ⟨names, by simp [climbs], fun place => by simp [climbs]⟩
  | cons x parts ih =>
      have hrest : .root ∉ parts := fun h => hroot (List.mem_cons_of_mem x h)
      cases x with
      | root => exact absurd List.mem_cons_self hroot
      | here => exact ih hrest k names
      | name n =>
          obtain ⟨left, hnormal, hwalk⟩ := ih hrest k (names ++ [n])
          have hclimbs : climbs (.name n :: parts) - names.length
              = climbs parts - (names ++ [n]).length := by
            rw [climbs, List.length_append, List.length_singleton]
            omega
          refine ⟨left, ?_, fun place => ?_⟩
          · rw [List.foldl_cons, normalStep_held_name, hnormal, hclimbs]
          · rw [walk_cons, walkPart, List.append_assoc, hwalk, hclimbs]
      | up =>
          rcases List.eq_nil_or_concat' names with rfl | ⟨init, n, rfl⟩
          · -- nothing to take away: one level is climbed
            obtain ⟨left, hnormal, hwalk⟩ := ih hrest (k + 1) []
            have hclimbs : k + (climbs (.up :: parts) - ([] : List String).length)
                = k + 1 + (climbs parts - ([] : List String).length) := by
              rw [climbs, List.length_nil]
              omega
            refine ⟨left, ?_, fun place => ?_⟩
            · rw [List.foldl_cons, normalStep_held_up, hnormal, hclimbs]
            · rw [walk_cons, walkPart, List.append_nil, dropLast_rdrop, hclimbs, ← hwalk,
                List.append_nil]
          · obtain ⟨left, hnormal, hwalk⟩ := ih hrest k init
            have hclimbs : climbs (.up :: parts) - (init ++ [n]).length
                = climbs parts - init.length := by
              rw [climbs, List.length_append, List.length_singleton]
              omega
            refine ⟨left, ?_, fun place => ?_⟩
            · rw [List.foldl_cons, normalStep_held_up_concat, hnormal, hclimbs]
            · rw [walk_cons, walkPart, ← List.append_assoc, List.dropLast_concat, hwalk, hclimbs]

theorem rdrop_eq_rdrop_iff {j : Nat} :
    place.rdrop j = place.rdrop k ↔ place.length - j = place.length - k := by
  constructor
  · intro h
    have hlength := congrArg List.length h
    simpa [List.rdrop] using hlength
  · intro h
    rw [List.rdrop, List.rdrop, h]

/-- Where a relative path leads after it has been normalised. -/
theorem walk_normalParts_iff (hroot : .root ∉ parts) (place : Place) :
    walk place (normalParts parts) = walk place parts ↔
      climbs parts ≤ 1 ∨ place.length ≤ climbs parts % 2 := by
  obtain ⟨left, hnormal, hwalk⟩ := exists_names_after hroot 0 []
  have hwalked : walk place parts = place.rdrop (climbs parts) ++ left := by
    simpa using hwalk place
  have hups : walk place (List.replicate (climbs parts % 2) .up)
      = place.rdrop (climbs parts % 2) := by
    rcases Nat.mod_two_eq_zero_or_one (climbs parts) with h | h
    · simp [h]
    · rw [h, ← dropLast_rdrop, List.rdrop_zero]
      rfl
  have hnormalised : walk place (normalParts parts) = place.rdrop (climbs parts % 2) ++ left := by
    have hparts : normalParts parts
        = List.replicate (climbs parts % 2) .up ++ left.map .name := by
      have hheld : held 0 [] = [] := rfl
      rw [hheld] at hnormal
      rw [normalParts, hnormal, held]
      simp
    rw [hparts, walk_append, hups, walk_names]
  rw [hnormalised, hwalked, List.append_left_inj, rdrop_eq_rdrop_iff]
  omega

/-! ### The root -/

theorem normalStep_cons_up {x : Part} (hx : x ≠ .root) (before : List Part) :
    normalStep (x :: before) .up = before := by
  cases x with
  | root => exact absurd rfl hx
  | here => rfl
  | up => rfl
  | name n => rfl

/-- Below the root, normalising does what it does without one. -/
theorem foldl_normalStep_root {done : List Part} (hdone : .root ∉ done) (hroot : .root ∉ parts) :
    parts.foldl normalStep (done ++ [.root]) = parts.foldl normalStep done ++ [.root] := by
  induction parts generalizing done with
  | nil => rfl
  | cons x parts ih =>
      have hrest : .root ∉ parts := fun h => hroot (List.mem_cons_of_mem x h)
      rw [List.foldl_cons, List.foldl_cons]
      cases x with
      | root => exact absurd List.mem_cons_self hroot
      | here => exact ih hdone hrest
      | name n =>
          refine @ih (.name n :: done) ?_ hrest
          simpa using hdone
      | up =>
          rcases done with - | ⟨y, done⟩
          · exact @ih [.up] (by simp) hrest
          · rw [List.mem_cons, not_or] at hdone
            have hy : y ≠ .root := Ne.symm hdone.1
            rw [List.cons_append, normalStep_cons_up hy, normalStep_cons_up hy]
            exact ih hdone.2 hrest

theorem normalParts_root (hroot : .root ∉ parts) :
    normalParts (.root :: parts) = .root :: normalParts parts := by
  have hfold : (Part.root :: parts).foldl normalStep [] = parts.foldl normalStep ([] ++ [.root]) :=
    rfl
  rw [normalParts, hfold, foldl_normalStep_root (by simp) hroot, List.reverse_append]
  rfl

theorem root_notMem_parts (h : p.isAbsolute = false) : .root ∉ p.parts := by
  rw [parts_eq_partsOf, partsOf, leadOf]
  intro hmem
  rcases List.mem_append.mp hmem with hlead | hmore
  · split at hlead
    · next hfirst =>
        rw [(isAbsolute_iff p).mpr hfirst] at h
        cases h
    · split at hlead
      · cases List.mem_singleton.mp hlead
      · cases hlead
  · obtain ⟨s, -, hs⟩ := List.mem_filterMap.mp hmore
    exact partOf?_ne_root s hs

/-- **Where a normalised path leads.**  From a place it leads where the path led
exactly if the path is absolute, or climbs one level at most, or the place is so
near the root that the levels lost make no difference.  So only absolute paths, and
relative ones that climb one level at most, lead where they led from everywhere.
Normalising again changes nothing. -/
theorem normalised_leads_there_iff (p : Path) :
    (∀ place : Place, walk place p.normalize.parts = walk place p.parts ↔
      p.isAbsolute = true ∨ climbs p.parts ≤ 1 ∨ place.length ≤ climbs p.parts % 2) ∧
    ((∀ place : Place, walk place p.normalize.parts = walk place p.parts) ↔
      p.isAbsolute = true ∨ climbs p.parts ≤ 1) ∧
    p.normalize.normalize = p.normalize := by
  have hplace : ∀ place : Place, walk place p.normalize.parts = walk place p.parts ↔
      p.isAbsolute = true ∨ climbs p.parts ≤ 1 ∨ place.length ≤ climbs p.parts % 2 := by
    intro place
    rw [parts_normalize]
    cases habsolute : p.isAbsolute with
    | true =>
        obtain ⟨rest, hparts, hinner⟩ := inner_of_isAbsolute habsolute
        have hroot : .root ∉ rest := by
          intro hmem
          rcases (hinner _ hmem).eq_up_or_name with hup | ⟨n, hn⟩
          · cases hup
          · cases hn
        rw [hparts, normalParts_root hroot, walk_cons, walk_cons]
        exact iff_of_true ((walk_normalParts_iff hroot []).mpr (.inr (Nat.zero_le _))) (.inl rfl)
    | false =>
        rw [walk_normalParts_iff (root_notMem_parts habsolute)]
        simp
  refine ⟨hplace, ?_, normalize_normalize p⟩
  constructor
  · intro h
    -- a place that is deep enough shows every level that is lost
    rcases (hplace ["a", "b"]).mp (h _) with habsolute | hclimbs | hdeep
    · exact .inl habsolute
    · exact .inr hclimbs
    · simp only [List.length_cons, List.length_nil] at hdeep
      omega
  · intro h place
    exact (hplace place).mpr (h.imp_right .inl)

theorem second_climb_lost :
    (normalize ⟨"../.."⟩).text = "" ∧ walk ["a", "b"] (Path.mk "../..").parts = [] ∧
      walk ["a", "b"] (normalize ⟨"../.."⟩).parts = ["a", "b"] := by
  decide

end LatexIndex.Path
