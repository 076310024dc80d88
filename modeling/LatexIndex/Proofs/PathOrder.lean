/-
LatexIndex/Proofs/PathOrder.lean

The order of paths is a total order of their parts, so a listing of plain
paths in order is determined by what it lists (`sorted_eq_of_mem_iff`).
-/
import LatexIndex.Path.Order
import LatexIndex.Proofs.Exploration
import LatexIndex.Proofs.Listing
import LatexIndex.Proofs.PlainPaths

namespace LatexIndex

namespace Part

/-! ### Parts -/

theorem lt_irrefl (a : Part) : a.lt a = false := by
  cases a <;> simp [lt]

theorem lt_trans {a b c : Part} (hab : a.lt b = true) (hbc : b.lt c = true) : a.lt c = true := by
  cases a <;> cases b <;> cases c <;> first
    | rfl
    | exact absurd hab Bool.false_ne_true
    | exact absurd hbc Bool.false_ne_true
    | exact decide_eq_true (String.lt_trans (of_decide_eq_true hab) (of_decide_eq_true hbc))

theorem lt_or_lt {a b : Part} (h : a ≠ b) : a.lt b = true ∨ b.lt a = true := by
  cases a <;> cases b
  case name.name x y =>
    by_contra hnot
    simp only [lt, decide_eq_true_eq, not_or, String.not_lt] at hnot
    exact h (congrArg name (String.le_antisymm hnot.2 hnot.1))
  all_goals first
    | exact .inl rfl
    | exact .inr rfl
    | exact absurd rfl h

theorem lt_asymm {a b : Part} (hab : a.lt b = true) : b.lt a = false := by
  rw [← Bool.not_eq_true]
  intro hba
  have h := lt_trans hab hba
  rw [lt_irrefl] at h
  cases h

/-! ### Lists of parts -/

theorem listLe_refl (as : List Part) : listLe as as = true := by
  induction as with
  | nil => rfl
  | cons a as ih => simpa [listLe] using ih

theorem listLe_cons {a b : Part} {as bs : List Part} :
    listLe (a :: as) (b :: bs) = true ↔ a.lt b = true ∨ a = b ∧ listLe as bs = true := by
  rw [listLe]
  by_cases h : a = b
  · subst h
    simp [lt_irrefl]
  · simp [h]

theorem listLe_trans {as bs cs : List Part} (hab : listLe as bs = true)
    (hbc : listLe bs cs = true) : listLe as cs = true := by
  induction as generalizing bs cs with
  | nil => rfl
  | cons a as ih =>
      rcases bs with - | ⟨b, bs⟩
      · cases hab
      rcases cs with - | ⟨c, cs⟩
      · cases hbc
      rw [listLe_cons] at hab hbc ⊢
      rcases hab with hab | ⟨rfl, hab⟩
      · rcases hbc with hbc | ⟨rfl, -⟩
        · exact .inl (lt_trans hab hbc)
        · exact .inl hab
      · rcases hbc with hbc | ⟨rfl, hbc⟩
        · exact .inl hbc
        · exact .inr ⟨rfl, ih hab hbc⟩

theorem listLe_antisymm {as bs : List Part} (hab : listLe as bs = true)
    (hba : listLe bs as = true) : as = bs := by
  induction as generalizing bs with
  | nil =>
      rcases bs with - | ⟨b, bs⟩
      · rfl
      · cases hba
  | cons a as ih =>
      rcases bs with - | ⟨b, bs⟩
      · cases hab
      rw [listLe_cons] at hab hba
      rcases hab with hab | ⟨rfl, hab⟩
      · rcases hba with hba | ⟨rfl, -⟩
        · rw [lt_asymm hab] at hba
          cases hba
        · rw [lt_irrefl] at hab
          cases hab
      · rcases hba with hba | ⟨-, hba⟩
        · rw [lt_irrefl] at hba
          cases hba
        · rw [ih hab hba]

theorem listLe_total (as bs : List Part) : listLe as bs = true ∨ listLe bs as = true := by
  induction as generalizing bs with
  | nil => exact .inl rfl
  | cons a as ih =>
      rcases bs with - | ⟨b, bs⟩
      · exact .inr rfl
      rw [listLe_cons, listLe_cons]
      by_cases h : a = b
      · subst h
        rcases ih bs with h | h
        · exact .inl (.inr ⟨rfl, h⟩)
        · exact .inr (.inr ⟨rfl, h⟩)
      · rcases lt_or_lt h with h | h
        · exact .inl (.inl h)
        · exact .inr (.inl h)

end Part

namespace Path

/-! ### Listings in order -/

theorem same_iff_le (p q : Path) : p.same q = true ↔ p.le q = true ∧ q.le p = true := by
  rw [same_iff]
  constructor
  · intro h
    rw [le, le, h]
    exact ⟨Part.listLe_refl _, Part.listLe_refl _⟩
  · rintro ⟨hpq, hqp⟩
    exact Part.listLe_antisymm hpq hqp

variable {l l' : List Path} {p : Path}

/-- A listing in order holds each path once, every path before those it is
not above. -/
theorem pairwise_sorted (l : List Path) :
    (sorted l).Pairwise fun p q => p.le q = true ∧ ¬ p.same q = true := by
  refine Listing.pairwise_dropRepeats (fun _ _ _ => Part.listLe_trans) same_iff_le ?_
  apply List.pairwise_mergeSort
  · exact fun _ _ _ => Part.listLe_trans
  · intro p q
    rw [Bool.or_eq_true]
    exact Part.listLe_total _ _

theorem mem_of_mem_sorted (h : p ∈ sorted l) : p ∈ l :=
  List.mem_mergeSort.mp (Listing.mem_of_mem_dropRepeats h)

theorem mem_sorted_iff (hl : ∀ q ∈ l, q.IsPlain) : p ∈ sorted l ↔ p ∈ l := by
  refine ⟨mem_of_mem_sorted, fun h => ?_⟩
  obtain ⟨q, hq, hsame⟩ := Listing.exists_mem_dropRepeats same_refl (List.mem_mergeSort.mpr h)
  rwa [← (hl q (mem_of_mem_sorted hq)).eq_of_parts (hl p h) (same_iff.mp hsame)]

/-- Two listings of the same plain paths are equal. -/
theorem sorted_eq_of_mem_iff (hl : ∀ q ∈ l, q.IsPlain) (hl' : ∀ q ∈ l', q.IsPlain)
    (h : ∀ p, p ∈ l ↔ p ∈ l') : sorted l = sorted l' := by
  have hnodup : ∀ l : List Path, (sorted l).Nodup := by
    intro l
    refine (pairwise_sorted l).imp ?_
    rintro p q ⟨-, hne⟩ rfl
    exact hne (same_refl p)
  have hperm : (sorted l).Perm (sorted l') := by
    rw [List.perm_ext_iff_of_nodup (hnodup l) (hnodup l')]
    intro p
    rw [mem_sorted_iff hl, mem_sorted_iff hl', h]
  refine hperm.eq_of_pairwise ?_ (pairwise_sorted l) (pairwise_sorted l')
  rintro p q - - ⟨hpq, hne⟩ ⟨hqp, -⟩
  exact absurd ((same_iff_le p q).mpr ⟨hpq, hqp⟩) hne

theorem le_congr_right {q : Path} (h : p.parts = q.parts) (r : Path) : r.le p = r.le q := by
  rw [le, le, h]

/-- The minimum of paths is one of them and comes before all. -/
theorem exists_minimum? (h : l ≠ []) :
    ∃ m ∈ l, minimum? l = some m ∧ ∀ q ∈ l, m.le q = true := by
  induction l with
  | nil => exact absurd rfl h
  | cons p l ih =>
      rcases l with - | ⟨p', l⟩
      · refine ⟨p, List.mem_cons_self, rfl, ?_⟩
        intro q hq
        rw [List.mem_singleton.mp hq]
        exact Part.listLe_refl _
      · obtain ⟨m, hm, hmin, hle⟩ := ih (List.cons_ne_nil p' l)
        by_cases hpm : p.le m = true
        · refine ⟨p, List.mem_cons_self, by rw [minimum?, hmin]; simp [hpm], ?_⟩
          intro q hq
          rcases List.mem_cons.mp hq with rfl | hq
          · exact Part.listLe_refl _
          · exact Part.listLe_trans hpm (hle q hq)
        · refine ⟨m, List.mem_cons_of_mem p hm, by rw [minimum?, hmin]; simp [hpm], ?_⟩
          intro q hq
          rcases List.mem_cons.mp hq with rfl | hq
          · exact (Part.listLe_total q.parts m.parts).resolve_left hpm
          · exact hle q hq

/-- A list in order only loses repeated paths. -/
theorem sorted_of_pairwise (h : l.Pairwise fun p q => p.le q = true) :
    sorted l = Listing.dropRepeats same l := by
  rw [sorted, List.mergeSort_of_pairwise h]

end Path

end LatexIndex
