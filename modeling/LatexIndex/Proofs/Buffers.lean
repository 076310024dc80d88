/-
LatexIndex/Proofs/Buffers.lean

What is open at a path after buffers were opened and closed.

Paths are compared by their parts, so a buffer is found however its path is
written (`find?_eq_of_same`), and opening or closing one says nothing about
any other path (`find?_insert`, `find?_erase`).
-/
import LatexIndex.Proofs.Exploration
import LatexIndex.Proofs.Lookup

namespace LatexIndex

namespace Buffers

variable {buffers : Buffers} {path other : Path} {buffer : Buffer}

/-! ### Looking up -/

theorem find?_eq_of_same (h : path.same other = true) :
    buffers.find? path = buffers.find? other :=
  Sources.find?_congr buffers (Path.same_iff.mp h)

@[simp] theorem find?_nil : Buffers.find? [] other = none := rfl

theorem find?_cons (p : Path) (b : Buffer) (rest : Buffers) :
    Buffers.find? ((p, b) :: rest) other = if p.same other then some b else rest.find? other := by
  unfold find?
  rw [List.find?_cons]
  rcases p.same other with - | - <;> rfl

theorem find?_append (buffers rest : Buffers) :
    Buffers.find? (buffers ++ rest) other = (buffers.find? other).or (rest.find? other) := by
  induction buffers with
  | nil => rfl
  | cons e buffers ih =>
      rw [List.cons_append, find?_cons, find?_cons, ih]
      split <;> rfl

theorem find?_eq_none (h : ∀ e ∈ buffers, ¬ e.1.same other = true) :
    buffers.find? other = none := by
  rw [find?, Option.map_eq_none_iff, List.find?_eq_none]
  exact h

/-- Two paths that are the same as a third are the same. -/
theorem same_of_same {p : Path} (hp : p.same path = true) :
    path.same other = p.same other := by
  rw [Path.same, Path.same, Path.same_iff.mp hp]

/-! ### Opening and closing -/

/-- What is found after the buffers at a path were given a text. -/
theorem find?_replace :
    Buffers.find? (List.map (fun (p, b) => if p.same path then (p, buffer) else (p, b)) buffers) other
      = if path.same other then (buffers.find? other).map fun _ => buffer
        else buffers.find? other := by
  induction buffers with
  | nil => simp
  | cons e buffers ih =>
      obtain ⟨p, b⟩ := e
      show Buffers.find? ((if p.same path then (p, buffer) else (p, b)) :: _) other = _
      by_cases hp : p.same path = true
      · rw [if_pos hp, find?_cons, ih, find?_cons, same_of_same hp]
        split <;> simp
      · rw [if_neg hp, find?_cons, ih, find?_cons]
        by_cases ho : p.same other = true
        · -- the buffer that is found is at another path
          have hne : ¬ path.same other = true := by
            intro h
            apply hp
            rw [Path.same_iff, Path.same_iff.mp ho, Path.same_iff.mp h]
          rw [if_pos ho, if_pos ho, if_neg hne]
        · rw [if_neg ho, if_neg ho]

/-- A buffer that is opened is there, and the others stay. -/
theorem find?_insert :
    (buffers.insert path buffer).find? other
      = if path.same other then some buffer else buffers.find? other := by
  unfold insert
  split
  · next hany =>
      rw [find?_replace]
      split
      · next hother =>
          -- there is a buffer to be replaced
          obtain ⟨e, he, hpath⟩ := List.any_eq_true.mp hany
          have hsome : (buffers.find? other).isSome = true := by
            rw [find?, Option.isSome_map, List.find?_isSome]
            exact ⟨e, he, by rw [Path.same_iff, Path.same_iff.mp hpath, Path.same_iff.mp hother]⟩
          obtain ⟨b, hb⟩ := Option.isSome_iff_exists.mp hsome
          rw [hb]
          rfl
      · rfl
  · next hany =>
      rw [find?_append, find?_cons, find?_nil]
      split
      · next hother =>
          rw [find?_eq_none]
          · rfl
          · intro e he heo
            apply hany
            rw [List.any_eq_true]
            exact ⟨e, he, by rw [Path.same_iff, Path.same_iff.mp heo, Path.same_iff.mp hother]⟩
      · rw [Option.or_none]

/-- A buffer that is closed is gone, and the others stay. -/
theorem find?_erase :
    (buffers.erase path).find? other = if path.same other then none else buffers.find? other := by
  unfold erase
  induction buffers with
  | nil => simp
  | cons e buffers ih =>
      obtain ⟨p, b⟩ := e
      by_cases hp : p.same path = true
      · rw [List.filter_cons_of_neg (by simp [hp]), ih, find?_cons, same_of_same hp]
        split <;> rfl
      · rw [List.filter_cons_of_pos (by simp [hp]), find?_cons, ih, find?_cons]
        by_cases ho : p.same other = true
        · have hne : ¬ path.same other = true := by
            intro h
            apply hp
            rw [Path.same_iff, Path.same_iff.mp ho, Path.same_iff.mp h]
          rw [if_pos ho, if_pos ho, if_neg hne]
        · rw [if_neg ho, if_neg ho]

/-- Where there are buffers, some path has one. -/
theorem exists_find? (h : buffers ≠ []) : ∃ e ∈ buffers, (buffers.find? e.1).isSome = true := by
  obtain ⟨e, rest, rfl⟩ := List.exists_cons_of_ne_nil h
  exact ⟨e, List.mem_cons_self, by simp [find?]⟩

theorem ne_nil_of_find? (h : (buffers.find? path).isSome = true) : buffers ≠ [] := by
  rintro rfl
  cases h

/-- The paths of buffers after one more was opened. -/
theorem mem_insert {e : Path × Buffer} (h : e ∈ buffers.insert path buffer) :
    e.1 = path ∨ ∃ e' ∈ buffers, e'.1 = e.1 := by
  unfold insert at h
  split at h
  · obtain ⟨e', he', rfl⟩ := List.mem_map.mp h
    right
    refine ⟨e', he', ?_⟩
    dsimp only
    split <;> rfl
  · rcases List.mem_append.mp h with h | h
    · exact .inr ⟨e, h, rfl⟩
    · rw [List.mem_singleton.mp h]
      exact .inl rfl

end Buffers

end LatexIndex
