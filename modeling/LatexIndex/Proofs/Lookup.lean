/-
LatexIndex/Proofs/Lookup.lean

Where paths lead.

Looking a path up follows its segments one by one and may fail at each; but
where it succeeds, it ends at the place that a walk along the parts of the
path ends at, whatever is on the disk (`walk_of_lookUp`).  So one path
written in two ways leads to one place, and what is read there is the same
text (`read_congr`).

The other use of walks is counting.  A normal path walks some start and then
down its names, so its names are the last names of the place it leads to, and
a finite disk has only so many of them (`parts_mem_knownPaths`).
-/
import LatexIndex.Proofs.PathParts
import LatexIndex.Project.Explore

namespace LatexIndex

namespace Disk

/-! ### Walking -/

/-- Where one part leads from a place; the root has no parent but itself. -/
def walkPart (place : Place) : Part → Place
  | .root => []
  | .here => place
  | .up => place.dropLast
  | .name n => place ++ [n]

/-- Where a list of parts leads from a place. -/
def walk (place : Place) (parts : List Part) : Place :=
  parts.foldl walkPart place

@[simp] theorem walk_nil (place : Place) : walk place [] = place := rfl

@[simp] theorem walk_cons (place : Place) (x : Part) (parts : List Part) :
    walk place (x :: parts) = walk (walkPart place x) parts := rfl

theorem walk_append (place : Place) (xs ys : List Part) :
    walk place (xs ++ ys) = walk (walk place xs) ys :=
  List.foldl_append

theorem walk_names (place : Place) (names : List String) :
    walk place (names.map .name) = place ++ names := by
  induction names generalizing place with
  | nil => simp
  | cons n names ih => rw [List.map_cons, walk_cons, ih, walkPart, List.append_assoc]; rfl

theorem begins_walk {base : Place} {parts : List Part} (hroot : .root ∉ parts) (hup : .up ∉ parts) :
    base <+: walk base parts := by
  induction parts generalizing base with
  | nil => exact List.prefix_rfl
  | cons x parts ih =>
      have hrest := fun base => @ih base (fun h => hroot (List.mem_cons_of_mem x h))
        fun h => hup (List.mem_cons_of_mem x h)
      cases x with
      | root => exact absurd List.mem_cons_self hroot
      | here => exact hrest base
      | up => exact absurd List.mem_cons_self hup
      | name n => exact (List.prefix_append base [n]).trans (hrest (base ++ [n]))

/-- The way from a place along segments other than `..` leads down. -/
theorem begins_walk_segments {base : Place} {segments : List String} (hup : ".." ∉ segments) :
    base <+: walk base (segments.filterMap Path.partOf?) := by
  refine begins_walk (fun hmem => ?_) fun hmem => ?_
  · obtain ⟨s, -, hs⟩ := List.mem_filterMap.mp hmem
    exact Path.partOf?_ne_root s hs
  · obtain ⟨s, hmem, hs⟩ := List.mem_filterMap.mp hmem
    refine hup ?_
    unfold Path.partOf? at hs
    split at hs
    · cases hs
    · split at hs
      · next heq => exact heq ▸ hmem
      · cases hs

variable {disk : Disk} {place place' : Place} {node : Node} {p q : Path}

/-! ### Looking up -/

/-- Where following segments succeeds, it ends where their parts lead. -/
theorem walk_of_follow {segs : List String} (h : disk.follow place segs = .ok (place', node)) :
    place' = walk place (segs.filterMap Path.partOf?) ∧ disk.node? place' = some node := by
  induction segs generalizing place with
  | nil =>
      unfold follow at h
      split at h
      · next hnode =>
          obtain ⟨rfl, rfl⟩ := Prod.mk.inj (Except.ok.inj h)
          exact ⟨rfl, hnode⟩
      · cases h
  | cons s segs ih =>
      unfold follow at h
      split at h
      · cases h
      · cases h
      · -- a directory: the segment is idle, `..` or a name
        split at h
        · next hidle =>
            rw [List.filterMap_cons_none (Path.partOf?_eq_none_iff.mpr hidle)]
            exact ih h
        · next hidle =>
            split at h
            · next hup =>
                have hpart : Path.partOf? s = some .up := by rw [hup]; rfl
                rw [List.filterMap_cons_some hpart]
                exact ih h
            · next hup =>
                have hpart : Path.partOf? s = some (.name s) := by
                  simp [Path.partOf?, hidle, hup]
                rw [List.filterMap_cons_some hpart]
                split at h
                · cases h
                · exact ih h

/-- **Where a path leads**: if anything is found at a path, it is found at
the place its parts lead to. -/
theorem walk_of_lookUp (h : disk.lookUp p = .ok (place, node)) :
    place = walk disk.workingDirectory p.parts ∧ disk.node? place = some node := by
  -- three ways to fail before the first segment is followed
  unfold lookUp at h
  split at h
  · cases h
  split at h
  · cases h
  split at h
  · cases h
  rw [Path.parts_eq_partsOf, Path.partsOf, Path.leadOf, walk_append]
  split at h
  · next habs =>
      rw [if_pos ((Path.isAbsolute_iff p).mp habs)]
      exact walk_of_follow h
  · next habs =>
      rw [if_neg (mt (Path.isAbsolute_iff p).mpr habs)]
      split <;> exact walk_of_follow h

/-- One path written in two ways leads to one place. -/
theorem lookUp_congr {a b : Place × Node} (h : p.parts = q.parts)
    (hp : disk.lookUp p = .ok a) (hq : disk.lookUp q = .ok b) : a = b := by
  obtain ⟨pplace, pnode⟩ := a
  obtain ⟨qplace, qnode⟩ := b
  obtain ⟨hpp, hpn⟩ := walk_of_lookUp hp
  obtain ⟨hqp, hqn⟩ := walk_of_lookUp hq
  have hplace : pplace = qplace := by rw [hpp, hqp, h]
  rw [hplace, hqn] at hpn
  rw [hplace, Option.some.inj hpn]

/-- A path is that of a file if it leads to one. -/
theorem isFile_iff :
    disk.isFile p = true ↔ ∃ place bytes, disk.lookUp p = .ok (place, .file bytes) := by
  unfold isFile
  rcases disk.lookUp p with reason | ⟨place, bytes | -⟩ <;> simp

/-- What is read was found. -/
theorem lookUp_of_readBytes {bytes : ByteArray} (h : disk.readBytes p = .ok bytes) :
    ∃ place, disk.lookUp p = .ok (place, .file bytes) := by
  unfold readBytes at h
  split at h
  · next place bytes' hl =>
      obtain rfl := Except.ok.inj h
      exact ⟨place, hl⟩
  · cases h
  · cases h

theorem readBytes_congr {a b : ByteArray} (h : p.parts = q.parts)
    (hp : disk.readBytes p = .ok a) (hq : disk.readBytes q = .ok b) : a = b := by
  obtain ⟨pplace, hpl⟩ := lookUp_of_readBytes hp
  obtain ⟨qplace, hql⟩ := lookUp_of_readBytes hq
  obtain ⟨-, hnode⟩ := Prod.mk.inj (lookUp_congr h hpl hql)
  exact Node.file.inj hnode

/-- A text is read where the bytes of a file are UTF-8. -/
theorem read_eq_ok_iff {text : String} :
    disk.read p = .ok text ↔
      ∃ bytes, disk.readBytes p = .ok bytes ∧ String.fromUTF8? bytes = some text := by
  unfold read
  rcases hb : disk.readBytes p with reason | bytes
  · simp [bind, Except.bind]
  · rcases ht : String.fromUTF8? bytes with - | t <;> simp [bind, Except.bind, ht]

/-- A file is found only where an entry is. -/
theorem exists_entry_of_file {bytes : ByteArray} (h : disk.node? place = some (.file bytes)) :
    ∃ node, (place, node) ∈ disk.entries := by
  unfold node? at h
  split at h
  · next other node hfind =>
      have hplace := List.find?_some hfind
      obtain rfl : other = place := by simpa using hplace
      exact ⟨node, List.mem_of_find?_eq_some hfind⟩
  · split at h
    · cases h
    · cases h

end Disk

/-! ### Known paths -/

/-- A place ends with the names of every normal path that leads to it. -/
theorem Disk.mem_partsTo {place base : Place} {parts : List Part} (h : Path.IsNormal parts)
    (hplace : place = walk base parts) : parts ∈ partsTo place := by
  obtain ⟨start, hstart, names, rfl, -⟩ := h
  rw [walk_append, walk_names] at hplace
  rw [partsTo, List.mem_flatMap]
  refine ⟨(walk base start).length, ?_, List.mem_map.mpr ⟨start, hstart, ?_⟩⟩
  · rw [List.mem_range, hplace, List.length_append]
    omega
  · -- the names are what is left of the place where the start has led
    rw [hplace, List.drop_left]

namespace Sources

variable {sources : Sources} {p q : Path}

theorem find?_congr (buffers : Buffers) (h : p.parts = q.parts) :
    buffers.find? p = buffers.find? q := by
  simp only [Buffers.find?, Path.same, h]

/-- Only known paths lead to something to be read. -/
theorem parts_mem_knownPaths (h : sources.has p.normalize = true) :
    p.normalize.parts ∈ sources.knownPaths := by
  rw [has, Bool.or_eq_true] at h
  rw [knownPaths, List.mem_append]
  rcases h with hbuffer | hfile
  · right
    obtain ⟨buffer, hbuffer⟩ := Option.isSome_iff_exists.mp hbuffer
    obtain ⟨entry, hentry, -⟩ := Option.map_eq_some_iff.mp hbuffer
    have hsame := List.find?_some hentry
    refine List.mem_map.mpr ⟨entry, List.mem_of_find?_eq_some hentry, ?_⟩
    simpa [Path.same] using hsame
  · left
    unfold Disk.isFile at hfile
    split at hfile
    · next place bytes hl =>
        obtain ⟨hplace, hnode⟩ := Disk.walk_of_lookUp hl
        obtain ⟨node, hentry⟩ := Disk.exists_entry_of_file hnode
        refine List.mem_flatMap.mpr ⟨(place, node), hentry, Disk.mem_partsTo ?_ hplace⟩
        rw [Path.parts_normalize]
        exact Path.isNormal_normalParts p
    · cases hfile

/-! ### Reading -/

/-- One path written in two ways has one text. -/
theorem read_congr {a b : String × Option Int} (h : p.parts = q.parts)
    (hp : sources.read p = .ok a) (hq : sources.read q = .ok b) : a = b := by
  simp only [read, find?_congr sources.buffers h] at hp hq
  rcases hbuffer : sources.buffers.find? q with - | buffer
  · -- no buffer is open, so both are read from the disk
    simp only [hbuffer] at hp hq
    rcases htp : sources.disk.read p with reason | tp
    · rw [htp] at hp
      cases hp
    rcases htq : sources.disk.read q with reason | tq
    · rw [htq] at hq
      cases hq
    rw [htp] at hp
    rw [htq] at hq
    obtain ⟨bp, hbp, hdp⟩ := Disk.read_eq_ok_iff.mp htp
    obtain ⟨bq, hbq, hdq⟩ := Disk.read_eq_ok_iff.mp htq
    obtain rfl := Disk.readBytes_congr h hbp hbq
    obtain rfl := Option.some.inj (hdp.symm.trans hdq)
    exact Except.ok.inj (hp.symm.trans hq)
  · simp only [hbuffer] at hp hq
    exact Except.ok.inj (hp.symm.trans hq)

/-- One path written in two ways names one document, up to the writing. -/
theorem load_congr {a b : Document} (h : p.parts = q.parts)
    (hp : sources.load p = .ok a) (hq : sources.load q = .ok b) : a.scan = b.scan := by
  unfold load at hp hq
  split at hp
  · next tp rp hrp =>
      split at hq
      · next tq rq hrq =>
          obtain ⟨rfl, -⟩ := Prod.mk.inj (read_congr h hrp hrq)
          obtain rfl := Except.ok.inj hp
          obtain rfl := Except.ok.inj hq
          rfl
      · cases hq
  · cases hp

/-- Something can be read at a path: a buffer is open there, or a file whose
bytes are UTF-8. -/
def Loads (sources : Sources) (path : Path) : Prop :=
  (sources.buffers.find? path).isSome = true ∨
    ∃ bytes text, sources.disk.readBytes path = .ok bytes ∧ String.fromUTF8? bytes = some text

/-- Exactly the paths where something can be read have a document. -/
theorem loads_iff {path : Path} : sources.Loads path ↔ ∃ d, sources.load path = .ok d := by
  rcases hbuffer : sources.buffers.find? path with - | buffer
  · rcases hdisk : sources.disk.read path with reason | text
    · have hnot : ∀ text, ¬ sources.disk.read path = .ok text := by simp [hdisk]
      simp only [Disk.read_eq_ok_iff] at hnot
      simp only [Loads, load, read, hbuffer, hdisk, Except.map]
      simp only [Option.isSome_none, Bool.false_eq_true, false_or, reduceCtorEq, exists_false,
        iff_false]
      rintro ⟨bytes, text, hbytes, htext⟩
      exact hnot text ⟨bytes, hbytes, htext⟩
    · obtain ⟨bytes, hbytes, htext⟩ := Disk.read_eq_ok_iff.mp hdisk
      simp only [load, read, hbuffer, hdisk, Except.map]
      exact ⟨fun _ => ⟨_, rfl⟩, fun _ => .inr ⟨bytes, text, hbytes, htext⟩⟩
  · simp only [load, read, hbuffer]
    exact ⟨fun _ => ⟨_, rfl⟩, fun _ => .inl (by simp [hbuffer])⟩

end Sources

end LatexIndex
