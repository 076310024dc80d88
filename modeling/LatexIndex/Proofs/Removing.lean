/-
LatexIndex/Proofs/Removing.lean

Removing one file.

Removing takes away what is at one place and below it.  Below a file there is
nothing that could be reached, and the directories above it stay.  So a path
leads to a file exactly if it led there before and the file is another one
(`lookUp_remove`).  This holds for every path, however it is written: whether a
path is affected depends on the place it leads to and not on its text.
-/
import LatexIndex.Proofs.Lookup

namespace LatexIndex

namespace Disk

variable {disk : Disk} {place base q : Place} {bytes old : ByteArray} {segments : List String}
  {p : Path}

/-! ### What is left -/

theorem entries_remove (h : disk.node? place = some (.file old)) :
    (disk.remove place).entries
      = disk.entries.filter (!place.isPrefixOf ·.1) ++ [(place.dropLast, .directory)] := by
  rw [remove, h]

/-- A directory on the way to a file, other than the file itself, is the one
that the file is in or lies above it. -/
theorem begins_dropLast (h : q <+: place) (hne : q ≠ place) : q <+: place.dropLast := by
  obtain ⟨way, rfl⟩ := h
  have hway : way ≠ [] := by
    rintro rfl
    exact hne (List.append_nil q).symm
  rw [List.dropLast_append_of_ne_nil hway]
  exact List.prefix_append q _

/-- Something lies at or below a place that is not below the file exactly if it
did before. -/
theorem any_below_remove (h : disk.node? place = some (.file old)) (hq : ¬ place <+: q) :
    (disk.remove place).entries.any (q.isPrefixOf ·.1) = true ↔
      disk.entries.any (q.isPrefixOf ·.1) = true := by
  simp only [entries_remove h, List.any_append, Bool.or_eq_true, List.any_eq_true, List.mem_filter,
    List.isPrefixOf_iff_prefix, List.mem_singleton, exists_eq_left, Bool.not_eq_true',
    ← Bool.not_eq_true]
  constructor
  · rintro (⟨e, ⟨he, -⟩, hqe⟩ | hqe)
    · exact ⟨e, he, hqe⟩
    · obtain ⟨node, hentry⟩ := exists_entry_of_file h
      exact ⟨(place, node), hentry, hqe.trans (List.dropLast_prefix place)⟩
  · rintro ⟨e, he, hqe⟩
    by_cases hplace : place <+: e.1
    · -- what was removed lies in a directory that stays
      have habove : q <+: place := (List.prefix_or_prefix_of_prefix hplace hqe).resolve_left hq
      exact .inr (begins_dropLast habove fun heq => hq (heq ▸ List.prefix_rfl))
    · exact .inl ⟨e, ⟨he, hplace⟩, hqe⟩

/-- **What removing leaves**: everything that is not below the file. -/
theorem node?_remove (h : disk.node? place = some (.file old)) (hq : ¬ place <+: q) :
    (disk.remove place).node? q = disk.node? q := by
  have hkept : (disk.entries.filter (!place.isPrefixOf ·.1)).find? (·.1 = q)
      = disk.entries.find? (·.1 = q) := by
    rw [List.find?_filter]
    congr 1
    funext e
    by_cases he : e.1 = q
    · have hnot : place.isPrefixOf q = false := by
        rwa [← Bool.not_eq_true, List.isPrefixOf_iff_prefix]
      simp [he, hnot]
    · simp [he]
  have hbelow := any_below_remove h hq
  rw [node?, node?, Bool.eq_iff_iff.mpr hbelow, entries_remove h, List.find?_append, hkept]
  rcases hfind : disk.entries.find? (·.1 = q) with - | ⟨other, node⟩
  · rw [hfind, Option.none_or]
    -- the directory of the file is now listed, and it was one before
    by_cases hdirectory : place.dropLast = q
    · have hany : disk.entries.any (q.isPrefixOf ·.1) = true := by
        obtain ⟨node, hentry⟩ := exists_entry_of_file h
        exact List.any_eq_true.mpr ⟨(place, node), hentry,
          List.isPrefixOf_iff_prefix.mpr (hdirectory ▸ List.dropLast_prefix place)⟩
      rw [List.find?_cons_of_pos (by simpa using hdirectory), hany, Bool.or_true]
      rfl
    · rw [List.find?_cons_of_neg (by simpa using hdirectory)]
      rfl
  · rw [hfind, Option.some_or]

/-- The file is gone. -/
theorem node?_remove_self (h : disk.node? place = some (.file old)) (hne : place ≠ []) :
    (disk.remove place).node? place = none := by
  have hshorter : ¬ place <+: place.dropLast := by
    intro hbegins
    have hlength := hbegins.length_le
    have hpos := List.length_pos_iff.mpr hne
    rw [List.length_dropLast] at hlength
    omega
  have hentries : ∀ e ∈ (disk.remove place).entries, ¬ place <+: e.1 := by
    intro e he
    rw [entries_remove h, List.mem_append] at he
    rcases he with he | he
    · have hkept := (List.mem_filter.mp he).2
      rwa [Bool.not_eq_true', ← Bool.not_eq_true, List.isPrefixOf_iff_prefix] at hkept
    · rwa [List.mem_singleton.mp he]
  have hfind : (disk.remove place).entries.find? (·.1 = place) = none := by
    rw [List.find?_eq_none]
    intro e he heq
    exact hentries e he (of_decide_eq_true heq ▸ List.prefix_rfl)
  rw [node?, hfind]
  simp only [hne, decide_false, Bool.false_or]
  refine if_neg fun hany => ?_
  obtain ⟨e, he, hbegins⟩ := List.any_eq_true.mp hany
  exact hentries e he (List.isPrefixOf_iff_prefix.mp hbegins)

/-! ### Where paths lead -/

theorem follow_remove (h : disk.node? place = some (.file old)) (hbase : ¬ place <+: base) :
    (disk.remove place).follow base segments = .ok (q, .file bytes) ↔
      disk.follow base segments = .ok (q, .file bytes) ∧ q ≠ place := by
  induction segments generalizing base with
  | nil =>
      rw [follow, follow, node?_remove h hbase]
      refine ⟨fun hfound => ⟨hfound, ?_⟩, And.left⟩
      rintro rfl
      split at hfound
      · obtain ⟨rfl, -⟩ := Prod.mk.inj (Except.ok.inj hfound)
        exact hbase List.prefix_rfl
      · cases hfound
  | cons s segments ih =>
      rw [follow, follow, node?_remove h hbase]
      rcases disk.node? base with - | (other | -)
      · simp
      · simp
      · dsimp only
        split
        · exact ih hbase
        · split
          · exact ih fun hbegins => hbase (hbegins.trans (List.dropLast_prefix base))
          · split
            · simp
            · by_cases hnext : place <+: base ++ [s]
              · -- the only way below the file is through the file
                obtain rfl : place = base ++ [s] :=
                  (List.prefix_concat_iff.mp hnext).resolve_right hbase
                have hgone := node?_remove_self h (by simp)
                rcases segments with - | ⟨t, segments⟩
                · rw [follow, follow, hgone, h]
                  simp only [reduceCtorEq, Except.ok.injEq, Prod.mk.injEq, false_iff, not_and]
                  rintro ⟨rfl, -⟩
                  exact not_not.mpr rfl
                · rw [follow, follow, hgone, h]
                  simp
              · exact ih hnext

/-- **Where paths lead after a file was removed**: to another file exactly if
they led there before. -/
theorem lookUp_remove (h : disk.node? place = some (.file old))
    (hworking : ¬ place <+: disk.workingDirectory) :
    (disk.remove place).lookUp p = .ok (q, .file bytes) ↔
      disk.lookUp p = .ok (q, .file bytes) ∧ q ≠ place := by
  have hsame : (disk.remove place).workingDirectory = disk.workingDirectory := by
    rw [remove, h]
  have hroot : ¬ place <+: [] := by
    intro hbegins
    obtain rfl := List.prefix_nil.mp hbegins
    exact hworking (List.nil_prefix)
  unfold lookUp
  rw [hsame]
  split
  · simp
  · split
    · simp
    · split
      · simp
      · split
        · exact follow_remove h hroot
        · exact follow_remove h hworking

end Disk

/-! ### Reading after removing -/

namespace Sources

variable {sources : Sources} {place : Place} {old : ByteArray} {p : Path}

/-- The sources after what is at a place was removed. -/
def without (sources : Sources) (place : Place) : Sources :=
  { sources with disk := sources.disk.remove place }

/-- What is read at a path is the file at a place. -/
def ReadsAt (sources : Sources) (place : Place) (p : Path) : Prop :=
  sources.buffers.find? p = none ∧ ∃ bytes, sources.disk.lookUp p = .ok (place, .file bytes)

theorem ReadsAt.node? (h : sources.ReadsAt place p) :
    ∃ bytes, sources.disk.node? place = some (.file bytes) := by
  obtain ⟨-, bytes, hlook⟩ := h
  exact ⟨bytes, (Disk.walk_of_lookUp hlook).2⟩

/-- **What there is to read after a file was removed**: all but that file. -/
theorem has_without (h : sources.disk.node? place = some (.file old))
    (hworking : ¬ place <+: sources.disk.workingDirectory) :
    (sources.without place).has p = true ↔ sources.has p = true ∧ ¬ sources.ReadsAt place p := by
  rw [has, has, without, ReadsAt]
  rcases hbuffer : sources.buffers.find? p with - | buffer
  · simp only [Option.isSome_none, Bool.false_or, Disk.isFile_iff, Disk.lookUp_remove h hworking,
      true_and, not_exists]
    constructor
    · rintro ⟨q, bytes, hlook, hne⟩
      refine ⟨⟨q, bytes, hlook⟩, fun other hother => hne ?_⟩
      exact (Prod.mk.inj (Except.ok.inj (hlook.symm.trans hother))).1
    · rintro ⟨⟨q, bytes, hlook⟩, hnot⟩
      refine ⟨q, bytes, hlook, ?_⟩
      rintro rfl
      exact hnot bytes hlook
  · simp

theorem read_without (h : sources.disk.node? place = some (.file old))
    (hworking : ¬ place <+: sources.disk.workingDirectory)
    (hhas : (sources.without place).has p = true) :
    (sources.without place).read p = sources.read p := by
  rw [read, read, without]
  rw [has, without] at hhas
  rcases hbuffer : sources.buffers.find? p with - | buffer
  · rw [hbuffer, Option.isSome_none, Bool.false_or, Disk.isFile_iff] at hhas
    obtain ⟨q, bytes, hlook⟩ := hhas
    dsimp only
    rw [Disk.read, Disk.read, Disk.readBytes, Disk.readBytes, hlook,
      ((Disk.lookUp_remove h hworking).mp hlook).1]
  · rfl

end Sources

end LatexIndex
