/-
LatexIndex/Listing.lean

Lists in which nothing is said twice: dropping neighbours that say the same,
and keeping the first of all elements that do.
-/

namespace LatexIndex.Listing

variable {α β : Type}

/-- Drops the elements that are the same as the last one kept, which is
`last` at the start. -/
def dropRepeatsAfter (same : α → α → Bool) (last : α) : List α → List α
  | [] => []
  | a :: more =>
    if same last a then dropRepeatsAfter same last more
    else a :: dropRepeatsAfter same a more

/-- Of each run of neighbours that are the same, the first. -/
def dropRepeats (same : α → α → Bool) : List α → List α
  | [] => []
  | a :: more => a :: dropRepeatsAfter same a more

/-- The elements that are the same as none of `seen` and none before them. -/
def distinctFrom (same : α → α → Bool) (seen : List α) : List α → List α
  | [] => []
  | a :: more =>
    if seen.any (same · a) then distinctFrom same seen more
    else a :: distinctFrom same (a :: seen) more

/-- Of all elements that are the same, the first. -/
def distinct (same : α → α → Bool) (elements : List α) : List α :=
  distinctFrom same [] elements

end LatexIndex.Listing
