/-
LatexIndex/Proofs/Writing.lean

Writing one file.

Writing changes what is at one place and makes the directories above it.  So
at every other place that an absolute path without `..` leads to, a file is
found exactly if it was found before, and it is the same file (`lookUp_put`).

Why nothing is found there may change, since the file or a directory above it
may lie on the way; `read_write_of_unmade` says when it does not.
-/
import LatexIndex.Proofs.Saving

namespace LatexIndex

namespace Disk

variable {disk : Disk} {place above base q : Place} {node : Node} {bytes new : ByteArray}
  {segments : List String} {p : Path}

/-! ### What is found at direct paths -/

/-- A path without `..` leads to its place or nowhere. -/
theorem place_of_lookUp (hp : p.IsDirect) (h : disk.lookUp p = .ok (q, node)) : q = p.place := by
  rw [(walk_of_lookUp h).1, Path.place, hp.parts_eq, walk_cons, walk_cons]
  rfl

/-! ### Places that can be written -/

/-- A place that a file can be written to: it is no directory and lies below
none but directories, and its path is not too long. -/
structure Writable (disk : Disk) (place : Place) : Prop where
  root : disk.node? [] = some .directory
  fits : Fits place
  free : disk.node? place ≠ some .directory
  below : ∀ above, above <+: place → above ≠ place →
    ∀ bytes, disk.node? above ≠ some (.file bytes)

namespace Writable

theorem ne_nil (h : disk.Writable place) : place ≠ [] := by
  rintro rfl
  exact h.free h.root

/-- Files at other places stay what they are, and no other file is made. -/
theorem node?_put_eq_file_iff (h : disk.Writable place) (hq : q ≠ place) :
    (disk.put place (.file new)).node? q = some (.file bytes) ↔
      disk.node? q = some (.file bytes) := by
  rw [node?_put_of_ne hq]
  split
  · next hbegins =>
      rcases hnode : disk.node? q with - | (old | -)
      · simp
      · exact absurd hnode (h.below q hbegins hq old)
      · simp
  · rfl

theorem node?_put_of_directory (h : disk.Writable place) (hq : disk.node? q = some .directory) :
    (disk.put place (.file new)).node? q = some .directory := by
  have hne : q ≠ place := by
    rintro rfl
    exact h.free hq
  rw [node?_put_of_ne hne, hq]
  split <;> rfl

/-- A directory that was there before writing was one. -/
theorem directory_of_put (hput : (disk.put place (.file new)).node? q = some .directory)
    (hq : disk.node? q ≠ none) : disk.node? q = some .directory := by
  have hne : q ≠ place := by
    rintro rfl
    rw [node?_put_self] at hput
    cases hput
  obtain ⟨node, hnode⟩ := Option.ne_none_iff_exists'.mp hq
  rw [node?_put_of_ne hne, hnode] at hput
  rw [hnode]
  split at hput
  · exact hput
  · exact hput

/-- Following segments down to another place finds the same file. -/
theorem follow_put (h : disk.Writable place) (hup : ".." ∉ segments) (hq : q ≠ place) :
    (disk.put place (.file new)).follow base segments = .ok (q, .file bytes) ↔
      disk.follow base segments = .ok (q, .file bytes) := by
  induction segments generalizing base with
  | nil =>
      have hfile : ∀ d : Disk, d.follow base [] = .ok (q, .file bytes) ↔
          base = q ∧ d.node? q = some (.file bytes) := by
        intro d
        rw [follow]
        rcases hnode : d.node? base with - | node
        · simp only [reduceCtorEq, false_iff]
          rintro ⟨rfl, hfile⟩
          rw [hnode] at hfile
          cases hfile
        · simp only [Except.ok.injEq, Prod.mk.injEq]
          constructor
          · rintro ⟨rfl, rfl⟩
            exact ⟨rfl, hnode⟩
          · rintro ⟨rfl, hfile⟩
            exact ⟨rfl, Option.some.inj (hnode.symm.trans hfile)⟩
      rw [hfile, hfile, h.node?_put_eq_file_iff hq]
  | cons s segments ih =>
      have hrest : ".." ∉ segments := fun hmem => hup (List.mem_cons_of_mem s hmem)
      have hs : s ≠ ".." := fun heq => hup (heq ▸ List.mem_cons_self)
      -- a segment can be followed from a directory only
      have hfile : ∀ d : Disk, d.follow base (s :: segments) = .ok (q, .file bytes) ↔
          d.node? base = some .directory ∧
            (Path.isIdle s = true ∧ d.follow base segments = .ok (q, .file bytes) ∨
              Path.isIdle s = false ∧ ¬ longestName < s.utf8ByteSize ∧
                d.follow (base ++ [s]) segments = .ok (q, .file bytes)) := by
        intro d
        rw [follow]
        rcases d.node? base with - | (old | -)
        · simp
        · simp
        · by_cases hidle : Path.isIdle s = true
          · simp [hidle]
          · by_cases hlong : longestName < s.utf8ByteSize <;> simp [hidle, hs, hlong]
      rw [hfile, hfile, @ih base hrest, @ih (base ++ [s]) hrest]
      refine and_congr_left fun hway => ⟨fun hput => ?_, h.node?_put_of_directory⟩
      -- what is below the directory was there before it was made
      refine directory_of_put hput ?_
      have hbelow : base <+: q ∧ disk.node? q ≠ none := by
        rcases hway with ⟨-, hfollow⟩ | ⟨-, -, hfollow⟩
        · obtain ⟨hwalk, hnode⟩ := walk_of_follow hfollow
          exact ⟨hwalk ▸ begins_walk_segments hrest, by simp [hnode]⟩
        · obtain ⟨hwalk, hnode⟩ := walk_of_follow hfollow
          exact ⟨(List.prefix_append base [s]).trans (hwalk ▸ begins_walk_segments hrest),
            by simp [hnode]⟩
      exact node?_above_ne_none hbelow.2 hbelow.1

/-- **What writing leaves alone**: a path without `..` that leads to another
place leads to the same file as before. -/
theorem lookUp_put (h : disk.Writable place) (hp : p.IsDirect) (hq : q ≠ place) :
    (disk.put place (.file new)).lookUp p = .ok (q, .file bytes) ↔
      disk.lookUp p = .ok (q, .file bytes) := by
  unfold lookUp
  rw [hp.1]
  split
  · rfl
  · split
    · rfl
    · split
      · rfl
      · exact h.follow_put hp.up_notMem_segments hq

theorem isFile_put (h : disk.Writable place) (hp : p.IsDirect) (hne : p.place ≠ place) :
    (disk.put place (.file new)).isFile p = disk.isFile p := by
  rw [Bool.eq_iff_iff, isFile_iff, isFile_iff]
  constructor
  · rintro ⟨q, bytes, hlook⟩
    obtain rfl := place_of_lookUp hp hlook
    exact ⟨p.place, bytes, (h.lookUp_put hp hne).mp hlook⟩
  · rintro ⟨q, bytes, hlook⟩
    obtain rfl := place_of_lookUp hp hlook
    exact ⟨p.place, bytes, (h.lookUp_put hp hne).mpr hlook⟩

theorem readBytes_put (h : disk.Writable place) (hp : p.IsDirect) (hne : p.place ≠ place)
    (hfile : disk.isFile p = true) :
    (disk.put place (.file new)).readBytes p = disk.readBytes p := by
  obtain ⟨q, bytes, hlook⟩ := isFile_iff.mp hfile
  obtain rfl := place_of_lookUp hp hlook
  rw [readBytes, readBytes, (h.lookUp_put hp hne).mpr hlook, hlook]

/-- What was written is found. -/
theorem lookUp_put_self (h : disk.Writable place) (hn : Path.Named place) :
    (disk.put place (.file new)).lookUp (pathOf place) = .ok (place, .file new) := by
  refine (lookUp_pathOf hn h.ne_nil).mpr ⟨rfl, h.fits, fun above habove hne => ?_, node?_put_self⟩
  rw [node?_put_of_ne hne, if_pos habove]
  rcases hnode : disk.node? above with - | (bytes | -)
  · rfl
  · exact absurd hnode (h.below above habove hne bytes)
  · rfl

/-- Where nothing is made on the way, the same nodes are on it. -/
theorem isDirectory_put (h : disk.Writable place)
    (hunmade : disk.node? q = none → ¬ q <+: place) :
    ((disk.put place (.file new)).node? q).map isDirectory = (disk.node? q).map isDirectory := by
  by_cases hq : q = place
  · subst hq
    rw [node?_put_self]
    rcases hnode : disk.node? q with - | (bytes | -)
    · exact absurd List.prefix_rfl (hunmade hnode)
    · rfl
    · exact absurd hnode h.free
  · rcases hnode : disk.node? q with - | (bytes | -)
    · rw [node?_put_of_ne hq, if_neg (hunmade hnode), hnode]
    · rw [(h.node?_put_eq_file_iff hq).mpr hnode]
    · rw [h.node?_put_of_directory hnode]

end Writable

end Disk

/-! ### Reading after writing -/

namespace Sources

variable {sources : Sources} {bytes : ByteArray} {p q : Path}

/-- The sources after a file was written where a path leads to. -/
def write (sources : Sources) (p : Path) (bytes : ByteArray) : Sources :=
  { sources with disk := sources.disk.put p.place (.file bytes) }

theorem has_write (h : sources.disk.Writable p.place) (hq : q.IsDirect)
    (hne : q.place ≠ p.place) : (sources.write p bytes).has q = sources.has q := by
  rw [has, has, write, h.isFile_put hq hne]

theorem read_write (h : sources.disk.Writable p.place) (hq : q.IsDirect)
    (hne : q.place ≠ p.place) (hhas : sources.has q = true) :
    (sources.write p bytes).read q = sources.read q := by
  rw [read, read, write]
  dsimp only
  rcases hbuffer : sources.buffers.find? q with - | buffer
  · rw [has, hbuffer, Option.isSome_none, Bool.false_or] at hhas
    rw [Disk.read, Disk.read, h.readBytes_put hq hne hhas]
  · rfl

/-- Why there is nothing to read at a path stays the same, if writing makes no
place on the way to it. -/
theorem read_write_of_unmade (h : sources.disk.Writable p.place) (hq : q.IsDirect)
    (hhas : sources.has q = false)
    (hunmade : ∀ above, above <+: q.place → sources.disk.node? above = none →
      ¬ above <+: p.place) :
    (sources.write p bytes).read q = sources.read q := by
  rw [has, Bool.or_eq_false_iff] at hhas
  have hbytes : (sources.disk.put p.place (.file bytes)).readBytes q = sources.disk.readBytes q :=
    Disk.readBytes_alike hq (fun above habove => h.isDirectory_put (hunmade above habove)) hhas.2
  rw [read, read, write]
  dsimp only
  rw [Disk.read, Disk.read, hbytes]

/-- What was written can be found. -/
theorem has_write_self (h : sources.disk.Writable p.place) (hp : p.IsPlain) :
    (sources.write p bytes).has p = true := by
  rw [has, Bool.or_eq_true]
  refine .inr (Disk.isFile_iff.mpr ⟨p.place, bytes, ?_⟩)
  have hlook := @Disk.Writable.lookUp_put_self _ _ bytes h hp.named
  rwa [← hp.eq_pathOf] at hlook

/-- A text that was written is read, where no buffer is open. -/
theorem read_write_self (h : sources.disk.Writable p.place) (hp : p.IsPlain)
    (hbuffer : sources.buffers.find? p = none) (text : String) :
    (sources.write p text.toUTF8).read p = .ok (text, none) := by
  have hlook := @Disk.Writable.lookUp_put_self _ _ text.toUTF8 h hp.named
  rw [← hp.eq_pathOf] at hlook
  have hbytes : (sources.disk.put p.place (.file text.toUTF8)).readBytes p = .ok text.toUTF8 := by
    rw [Disk.readBytes, hlook]
  have htext : String.fromUTF8? text.toUTF8 = some text := dif_pos text.isValidUTF8
  rw [read, write]
  dsimp only
  rw [hbuffer, Disk.read_eq_ok_iff.mpr ⟨_, hbytes, htext⟩]
  rfl

end Sources

end LatexIndex
