/-
LatexIndex/Catalog.lean

A list together with a map from keys to positions in it, by which the element
of a key is found.  The two are built in step, and a catalog carries the proof
that they are.
-/

namespace LatexIndex

/-- Elements in the order in which they were entered, and the position of each
one under its key. -/
structure Catalog {α κ : Type} (key : α → κ) where
  items : List α
  positions : List (κ × Nat)
  inStep : positions = items.mapIdx fun i a => (key a, i)
  deriving DecidableEq, Repr

namespace Catalog

variable {α κ : Type} {key : α → κ}

/-- Nothing. -/
def empty : Catalog key :=
  ⟨[], [], rfl⟩

/-- The position of the element of a key. -/
def position? [BEq κ] (c : Catalog key) (k : κ) : Option Nat :=
  c.positions.lookup k

/-- The element of a key. -/
def find? [BEq κ] (c : Catalog key) (k : κ) : Option α :=
  (c.position? k).bind (c.items[·]?)

/-- Enters an element whose key is new. -/
def push (c : Catalog key) (a : α) : Catalog key where
  items := c.items ++ [a]
  positions := c.positions ++ [(key a, c.items.length)]
  inStep := by rw [c.inStep, List.mapIdx_concat]

/-- Changes the element at a position, all but its key. -/
def change (c : Catalog key) (i : Nat) (f : α → α) (h : ∀ a, key (f a) = key a) :
    Catalog key where
  items := c.items.modify i f
  positions := c.positions
  inStep := by
    rw [c.inStep, List.mapIdx_eq_iff]
    intro j
    rw [List.getElem?_mapIdx, List.getElem?_modify, Option.map_eq_map, Option.map_map]
    congr 1
    funext a
    by_cases hij : i = j <;> simp [hij, h]

end Catalog

end LatexIndex
