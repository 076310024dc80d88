/-
LatexIndex/Proofs/Catalog.lean

Finding by position and searching the list come to the same.

A catalog carries the proof that its map is in step with its list, so nothing
has to be assumed of it: the position of a key is that of the first element
with the key (`position?_eq`), it is always a position of the list
(`exists_of_position?`), and the element found there is the one that a search
through the list finds (`find?_eq`).  So a change at that position is a change
to the element with the key (`items_change`).
-/
import Mathlib.Data.List.Nodup
import LatexIndex.Catalog

namespace LatexIndex.Catalog

variable {α κ : Type} {key : α → κ} {k : κ} {i : Nat}

@[simp] theorem items_push (c : Catalog key) (a : α) : (c.push a).items = c.items ++ [a] :=
  rfl

variable [BEq κ]

/-- A list of positions that starts at `n` has the position of the first element
with a key, counted from `n`. -/
theorem lookup_mapIdx (items : List α) (k : κ) (n : Nat) :
    (items.mapIdx fun i a => (key a, i + n)).lookup k
      = (items.findIdx? (k == key ·)).map (· + n) := by
  induction items generalizing n with
  | nil => rfl
  | cons a items ih =>
      have hshift : (fun i a => (key a, i + 1 + n)) = fun i a => (key a, i + (n + 1)) := by
        funext i a
        rw [Nat.add_assoc, Nat.add_comm 1 n]
      rw [List.mapIdx_cons, List.findIdx?_cons, hshift]
      by_cases hk : (k == key a) = true
      · rw [if_pos hk, List.lookup_cons, hk]
        rfl
      · rw [if_neg hk, List.lookup_cons, Bool.eq_false_iff.mpr hk, Option.map_map]
        refine (ih (n + 1)).trans (congrArg (Option.map · _) ?_)
        funext i
        exact (Nat.succ_add_eq_add_succ i n).symm

/-- **The position of a key** is that of the first element with the key. -/
theorem position?_eq (c : Catalog key) (k : κ) :
    c.position? k = c.items.findIdx? (k == key ·) := by
  rw [position?, c.inStep]
  exact (lookup_mapIdx c.items k 0).trans Option.map_id'

/-- A position that a key leads to is one of the list, and the element there has
the key. -/
theorem exists_of_position? {c : Catalog key} (h : c.position? k = some i) :
    ∃ a, c.items[i]? = some a ∧ (k == key a) = true := by
  rw [position?_eq, List.findIdx?_eq_some_iff_getElem] at h
  obtain ⟨hi, hkey, -⟩ := h
  exact ⟨_, List.getElem?_eq_getElem hi, hkey⟩

/-- **The element of a key** is the first with the key. -/
theorem find?_eq (c : Catalog key) (k : κ) : c.find? k = c.items.find? (k == key ·) := by
  rw [find?, position?_eq]
  rcases h : c.items.findIdx? (k == key ·) with - | i
  · rw [List.findIdx?_eq_none_iff] at h
    exact (List.find?_eq_none.mpr fun a ha => by simp [h a ha]).symm
  · rw [List.find?_eq_getElem?_findIdx, List.findIdx_eq_getD_findIdx?, h]
    rfl

/-- Where no key occurs twice, changing the element at the position of a key is
changing whatever has the key. -/
theorem items_change [LawfulBEq κ] {c : Catalog key} (hnodup : (c.items.map key).Nodup)
    (h : c.position? k = some i) (f : α → α) (hf : ∀ a, key (f a) = key a) :
    (c.change i f hf).items = c.items.map fun a => if k == key a then f a else a := by
  obtain ⟨b, hb, hkey⟩ := exists_of_position? h
  obtain rfl : k = key b := eq_of_beq hkey
  have hi : i < (c.items.map key).length := by
    rw [List.length_map]
    exact (List.getElem?_eq_some_iff.mp hb).1
  apply List.ext_getElem?
  intro j
  rw [change, List.getElem?_modify, List.getElem?_map]
  rcases hj : c.items[j]? with - | a
  · rfl
  · have hsame : i = j ↔ (key b == key a) = true := by
      rw [← List.getElem?_inj hi hnodup, List.getElem?_map, List.getElem?_map, hb, hj,
        Option.map_some, Option.map_some, Option.some_inj, beq_iff_eq]
    exact congrArg some (if_congr hsame rfl rfl)

end LatexIndex.Catalog
