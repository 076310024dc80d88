/-
LatexIndex/Proofs/Saving.lean

Saving the buffers of an editor.

Saving writes every buffer to its place on the disk (`Disk.save`).  That
changes what is at the places of buffers and makes directories above them, and
nothing else (`node?_save`).  A plain path is found exactly if all places
above it are directories (`lookUp_pathOf`), so for buffers that can be saved
there is something to read at a plain path before exactly if there is after,
and it is the same text (`mirrors_save`).

Why a path cannot be read may change, since saving may make a directory on
the way to it; `read_save_of_unmade` says when it does not.
-/
import Mathlib.Data.List.Find
import LatexIndex.Proofs.Buffers
import LatexIndex.Proofs.PlainPaths

namespace LatexIndex

namespace Disk

variable {disk : Disk} {place above base q : Place} {node : Node} {bytes : ByteArray}

/-! ### Plain paths on a disk -/

/-- A place whose plain path is not too long for a system. -/
structure Fits (place : Place) : Prop where
  ending : '\x00' ∉ (pathOf place).text.toList
  path : (pathOf place).text.utf8ByteSize ≤ longestPath
  names : ∀ n ∈ place, n.utf8ByteSize ≤ longestName

/-- Everything above a place is a directory. -/
def Reachable (disk : Disk) (place : Place) : Prop :=
  ∀ above, above <+: place → above ≠ place → disk.node? above = some .directory

/-- The places above a place are its beginnings. -/
theorem reachable_iff_take : disk.Reachable place ↔
    ∀ k < place.length, disk.node? (place.take k) = some .directory := by
  constructor
  · intro h k hk
    refine h _ (List.take_prefix k place) fun heq => ?_
    have hlen := congrArg List.length heq
    rw [List.length_take] at hlen
    omega
  · intro h above habove hne
    rw [List.prefix_iff_eq_take.mp habove]
    refine h _ (Nat.lt_of_le_of_ne habove.length_le fun hlen => ?_)
    exact hne (habove.eq_of_length hlen)

/-- What is above something is there as well. -/
theorem node?_above_ne_none (h : disk.node? place ≠ none) (habove : above <+: place) :
    disk.node? above ≠ none := by
  intro hnone
  have habsent : (above = [] || disk.entries.any (above.isPrefixOf ·.1)) = false := by
    rw [node?] at hnone
    split at hnone
    · cases hnone
    · simpa using hnone
  rw [Bool.or_eq_false_iff, decide_eq_false_iff_not, List.any_eq_false] at habsent
  obtain ⟨hne, hentries⟩ := habsent
  apply h
  -- an entry at the place or below it would be below the place above
  have hplace : place ≠ [] := by
    rintro rfl
    exact hne (List.prefix_nil.mp habove)
  have hbelow : ∀ e ∈ disk.entries, ¬ place <+: e.1 := fun e he hprefix =>
    hentries e he (List.isPrefixOf_iff_prefix.mpr (habove.trans hprefix))
  have hfind : disk.entries.find? (·.1 = place) = none := by
    rw [List.find?_eq_none]
    intro e he heq
    have hplace : e.1 = place := of_decide_eq_true heq
    exact hbelow e he (hplace ▸ List.prefix_rfl)
  rw [node?, hfind]
  simp only [hplace, decide_false, Bool.false_or]
  rw [if_neg]
  rw [List.any_eq_true]
  rintro ⟨e, he, hprefix⟩
  exact hbelow e he (List.isPrefixOf_iff_prefix.mp hprefix)

theorem follow_name {n : String} {names : List String} (hn : Path.Inner (.name n)) :
    disk.follow base (n :: names) = match disk.node? base with
      | none => .error .missing
      | some (.file _) => .error .notDirectory
      | some .directory =>
        if longestName < n.utf8ByteSize then .error .nameTooLong
        else disk.follow (base ++ [n]) names := by
  have hidle : Path.isIdle n = false := hn.not_idle
  have hup : n ≠ ".." := by
    rintro rfl
    cases hn.1
  rw [follow]
  rcases disk.node? base with - | (bytes | -)
  · rfl
  · rfl
  · dsimp only
    rw [if_neg (by rw [hidle]; exact Bool.false_ne_true), if_neg hup]

theorem follow_empty {names : List String} (h : disk.node? base = some .directory) :
    disk.follow base ("" :: names) = disk.follow base names := by
  rw [follow, h]
  rfl

/-- Following names goes through directories only. -/
theorem follow_names {names : List String} (hn : Path.Named names) :
    disk.follow base names = .ok (place, node) ↔
      place = base ++ names ∧ (∀ n ∈ names, n.utf8ByteSize ≤ longestName) ∧
        (∀ k < names.length, disk.node? (base ++ names.take k) = some .directory) ∧
        disk.node? (base ++ names) = some node := by
  induction names generalizing base with
  | nil =>
      unfold follow
      rcases hnode : disk.node? base with - | found <;> simp [hnode, eq_comm]
  | cons n names ih =>
      have hrest : Path.Named names := fun m hm => hn m (List.mem_cons_of_mem n hm)
      -- the directories on the way are `base` and those from the next name on
      have hway : (∀ k < (n :: names).length,
            disk.node? (base ++ (n :: names).take k) = some .directory) ↔
          disk.node? base = some .directory ∧
            ∀ k < names.length, disk.node? ((base ++ [n]) ++ names.take k) = some .directory := by
        constructor
        · intro h
          refine ⟨by simpa using h 0 (by simp), fun k hk => ?_⟩
          simpa using h (k + 1) (by simpa using hk)
        · rintro ⟨hbase, h⟩ k hk
          rcases k with - | k
          · simpa using hbase
          · simpa using h k (by simpa using hk)
      have happ : base ++ n :: names = (base ++ [n]) ++ names := by simp
      rw [hway, happ, List.forall_mem_cons, follow_name (hn n List.mem_cons_self)]
      rcases hnode : disk.node? base with - | (bytes | -)
      · simp
      · simp
      · by_cases hlong : longestName < n.utf8ByteSize
        · simp [hlong, Nat.not_le.mpr hlong]
        · simp only [hlong, if_false, ih hrest]
          simp [Nat.not_lt.mp hlong]

/-- **Where a plain path leads**: to its place, if that is not too long and
everything above it is a directory. -/
theorem lookUp_pathOf (hn : Path.Named place) (hne : place ≠ []) :
    disk.lookUp (pathOf place) = .ok (q, node) ↔
      q = place ∧ Fits place ∧ disk.Reachable place ∧ disk.node? place = some node := by
  have habsolute := (Path.isDirect_pathOf hn).1
  have htext : (pathOf place).text ≠ "" := by
    intro hempty
    rw [Path.isAbsolute, hempty] at habsolute
    cases habsolute
  have hroot : ([] : Place) ≠ place := Ne.symm hne
  rw [lookUp, if_neg htext]
  by_cases hzero : '\x00' ∈ (pathOf place).text.toList
  · rw [if_pos (List.contains_iff_mem.mpr hzero)]
    simp only [reduceCtorEq, false_iff]
    exact fun h => h.2.1.ending hzero
  · rw [if_neg (by simpa using hzero)]
    by_cases hlong : longestPath < (pathOf place).text.utf8ByteSize
    · rw [if_pos hlong]
      simp only [reduceCtorEq, false_iff]
      exact fun h => Nat.not_le.mpr hlong h.2.1.path
    · rw [if_neg hlong, if_pos habsolute, Path.segments_pathOf hn hne]
      by_cases hnode : disk.node? [] = some .directory
      · simp only [follow_empty hnode, follow_names hn, List.nil_append, reachable_iff_take]
        constructor
        · rintro ⟨rfl, hnames, hway, hfound⟩
          exact ⟨rfl, ⟨hzero, Nat.not_lt.mp hlong, hnames⟩, hway, hfound⟩
        · rintro ⟨rfl, hfits, hway, hfound⟩
          exact ⟨rfl, hfits.names, hway, hfound⟩
      · constructor
        · intro h
          rw [follow] at h
          rcases hfound : disk.node? [] with - | (bytes | -)
          · rw [hfound] at h
            cases h
          · rw [hfound] at h
            cases h
          · exact absurd hfound hnode
        · exact fun h => absurd (h.2.2.1 [] List.nil_prefix hroot) hnode

theorem lookUp_pathOf_nil (h : disk.node? [] = some .directory) :
    disk.lookUp (pathOf []) = .ok ([], .directory) := by
  have hsegments : (pathOf []).segments = ["", ""] := by decide
  have habsolute : (pathOf []).isAbsolute = true := by decide
  rw [lookUp, if_neg (by decide), if_neg (by decide), if_neg (by decide), if_pos habsolute,
    hsegments, follow_empty h, follow_empty h, follow, h]

/-- The root is no file. -/
theorem isFile_pathOf_nil : disk.isFile (pathOf []) = false := by
  have hsegments : (pathOf []).segments = ["", ""] := by decide
  have hidle : Path.isIdle "" = true := rfl
  have habsolute : (pathOf []).isAbsolute = true := by decide
  rw [isFile, lookUp, if_neg (by decide), if_neg (by decide), if_neg (by decide),
    if_pos habsolute, hsegments]
  rcases hnode : disk.node? [] with - | (bytes | -) <;> simp [follow, hnode, hidle]

theorem isFile_pathOf (hn : Path.Named place) : disk.isFile (pathOf place) = true ↔
    place ≠ [] ∧ Fits place ∧ disk.Reachable place ∧
      ∃ bytes, disk.node? place = some (.file bytes) := by
  by_cases hne : place = []
  · subst hne
    rw [isFile_pathOf_nil]
    simp
  · have hfile : disk.isFile (pathOf place) = true ↔
        ∃ q bytes, disk.lookUp (pathOf place) = .ok (q, .file bytes) := by
      unfold isFile
      rcases disk.lookUp (pathOf place) with reason | ⟨q, bytes | -⟩ <;> simp
    rw [hfile]
    simp only [lookUp_pathOf hn hne]
    constructor
    · rintro ⟨q, bytes, rfl, hfits, hway, hnode⟩
      exact ⟨hne, hfits, hway, bytes, hnode⟩
    · rintro ⟨-, hfits, hway, bytes, hnode⟩
      exact ⟨place, bytes, rfl, hfits, hway, hnode⟩

/-- The bytes of a file that a plain path leads to. -/
theorem readBytes_pathOf (hn : Path.Named place) (hne : place ≠ []) (hfits : Fits place)
    (hway : disk.Reachable place) (hnode : disk.node? place = some (.file bytes)) :
    disk.readBytes (pathOf place) = .ok bytes := by
  rw [readBytes, (lookUp_pathOf hn hne).mpr ⟨rfl, hfits, hway, hnode⟩]

/-- Whether a node is a directory. -/
def isDirectory : Node → Bool
  | .file _ => false
  | .directory => true

/-- Two nodes that differ at most in what they hold. -/
theorem alike_cases {a b : Option Node} (h : a.map isDirectory = b.map isDirectory) :
    (a = none ∧ b = none) ∨ (∃ x y, a = some (.file x) ∧ b = some (.file y)) ∨
      (a = some .directory ∧ b = some .directory) := by
  rcases a with - | (x | -) <;> rcases b with - | (y | -) <;> simp_all [isDirectory]

/-- Which way segments lead, and why they lead nowhere, depends on where the
directories are and not on what the files hold. -/
theorem follow_alike {other : Disk} {segments : List String} (hup : ".." ∉ segments)
    (h : ∀ above, base <+: above → above <+: walk base (segments.filterMap Path.partOf?) →
      (other.node? above).map isDirectory = (disk.node? above).map isDirectory) :
    (other.follow base segments).map (isDirectory ·.2)
      = (disk.follow base segments).map (isDirectory ·.2) := by
  induction segments generalizing base with
  | nil =>
      rw [follow, follow]
      rcases alike_cases (h base List.prefix_rfl List.prefix_rfl) with
        ⟨ha, hb⟩ | ⟨x, y, ha, hb⟩ | ⟨ha, hb⟩
      · rw [ha, hb]
      · rw [ha, hb]
        rfl
      · rw [ha, hb]
  | cons s segments ih =>
      have hrest : ".." ∉ segments := fun hmem => hup (List.mem_cons_of_mem s hmem)
      have hs : s ≠ ".." := fun heq => hup (heq ▸ List.mem_cons_self)
      rw [follow, follow]
      rcases alike_cases (h base List.prefix_rfl (begins_walk_segments hup)) with
        ⟨ha, hb⟩ | ⟨x, y, ha, hb⟩ | ⟨ha, hb⟩
      · rw [ha, hb]
      · rw [ha, hb]
      · rw [ha, hb]
        dsimp only
        by_cases hidle : Path.isIdle s = true
        · rw [List.filterMap_cons_none (Path.partOf?_eq_none_iff.mpr hidle)] at h
          rw [if_pos hidle, if_pos hidle]
          exact ih hrest h
        · have hpart : Path.partOf? s = some (.name s) := by simp [Path.partOf?, hidle, hs]
          rw [List.filterMap_cons_some hpart] at h
          rw [if_neg hidle, if_neg hidle, if_neg hs, if_neg hs]
          split
          · rfl
          · exact ih hrest fun above habove => h above ((List.prefix_append base [s]).trans habove)

theorem lookUp_alike {other : Disk} {p : Path} (hp : p.IsDirect)
    (h : ∀ above, above <+: p.place →
      (other.node? above).map isDirectory = (disk.node? above).map isDirectory) :
    (other.lookUp p).map (isDirectory ·.2) = (disk.lookUp p).map (isDirectory ·.2) := by
  have hfollow : (other.follow [] p.segments).map (isDirectory ·.2)
      = (disk.follow [] p.segments).map (isDirectory ·.2) :=
    follow_alike hp.up_notMem_segments fun above _ habove => h above (hp.walk_segments ▸ habove)
  unfold lookUp
  rw [hp.1]
  -- both fail for the same reason, or follow the same segments
  split
  · rfl
  · split
    · rfl
    · split
      · rfl
      · exact hfollow

/-- Why there is no file at a path is the same on both disks. -/
theorem readBytes_alike {other : Disk} {p : Path} (hp : p.IsDirect)
    (h : ∀ above, above <+: p.place →
      (other.node? above).map isDirectory = (disk.node? above).map isDirectory)
    (hfile : disk.isFile p = false) : other.readBytes p = disk.readBytes p := by
  have hlook := lookUp_alike hp h
  unfold readBytes
  rcases hold : disk.lookUp p with reason | ⟨place, bytes | -⟩ <;>
    rcases hnew : other.lookUp p with reason' | ⟨place', bytes' | -⟩ <;>
    simp_all [Except.map, isDirectory, isFile]

/-! ### Writing -/

theorem find?_put_of_ne (h : q ≠ place) :
    (disk.put place node).entries.find? (·.1 = q) = disk.entries.find? (·.1 = q) := by
  have hlast : List.find? (fun e : Place × Node => decide (e.1 = q)) [(place, node)] = none := by
    simp [Ne.symm h]
  rw [put, List.find?_append, hlast, Option.or_none, List.find?_filter]
  congr 1
  funext e
  by_cases he : e.1 = q <;> simp [he, h]

/-- What is at a place after something was put there. -/
theorem node?_put_self : (disk.put place node).node? place = some node := by
  have hfind : (disk.put place node).entries.find? (·.1 = place) = some (place, node) := by
    have hnone : (disk.entries.filter (·.1 ≠ place)).find? (·.1 = place) = none := by
      simp [List.find?_eq_none]
    rw [put, List.find?_append, hnone]
    simp
  rw [node?, hfind]

/-- What is at another place stays, except that directories are made above
the place. -/
theorem node?_put_of_ne (h : q ≠ place) : (disk.put place node).node? q =
    if q <+: place then some ((disk.node? q).getD .directory) else disk.node? q := by
  -- an entry at the place counts as before, even if it was replaced
  have hany : (disk.put place node).entries.any (q.isPrefixOf ·.1) = true ↔
      disk.entries.any (q.isPrefixOf ·.1) = true ∨ q <+: place := by
    simp only [put, List.any_append, Bool.or_eq_true, List.any_eq_true, List.mem_filter,
      List.isPrefixOf_iff_prefix, List.mem_singleton, exists_eq_left]
    constructor
    · rintro (⟨e, ⟨he, -⟩, hq⟩ | hq)
      · exact .inl ⟨e, he, hq⟩
      · exact .inr hq
    · rintro (⟨e, he, hq⟩ | hq)
      · by_cases hplace : e.1 = place
        · exact .inr (hplace ▸ hq)
        · exact .inl ⟨e, ⟨he, by simpa using hplace⟩, hq⟩
      · exact .inr hq
  rw [node?, node?, find?_put_of_ne h]
  generalize disk.entries.find? _ = found
  rcases found with - | ⟨other, found⟩
  · simp only [Bool.or_eq_true, decide_eq_true_eq, hany]
    by_cases hq : q <+: place
    · rw [if_pos (.inr (.inr hq)), if_pos hq]
      split <;> rfl
    · rw [if_neg hq]
      exact if_congr (or_congr_right (or_iff_left hq)) rfl rfl
  · simp

/-- The disk with every buffer written to its place; of several buffers for
one place the first counts. -/
def save (disk : Disk) (buffers : Buffers) : Disk :=
  buffers.foldr (fun e disk => disk.put e.1.place (.file e.2.text.toUTF8)) disk

/-- The buffer whose path leads to a place. -/
def bufferAt? (buffers : Buffers) (place : Place) : Option Buffer :=
  (List.find? (·.1.place = place) buffers).map (·.2)

theorem bufferAt?_cons (e : Path × Buffer) (buffers : Buffers) :
    bufferAt? (e :: buffers) q = if e.1.place = q then some e.2 else bufferAt? buffers q := by
  unfold bufferAt?
  rw [List.find?_cons]
  by_cases h : e.1.place = q <;> simp [h]

theorem exists_of_bufferAt? {buffers : Buffers} {buffer : Buffer}
    (h : bufferAt? buffers q = some buffer) : ∃ e ∈ buffers, e.1.place = q := by
  obtain ⟨e, he, -⟩ := Option.map_eq_some_iff.mp h
  have hplace := List.find?_some he
  exact ⟨e, List.mem_of_find?_eq_some he, by simpa using hplace⟩

theorem ne_of_bufferAt?_eq_none {buffers : Buffers} (h : bufferAt? buffers q = none)
    {e : Path × Buffer} (he : e ∈ buffers) : e.1.place ≠ q := by
  rw [bufferAt?, Option.map_eq_none_iff, List.find?_eq_none] at h
  simpa using h e he

@[simp] theorem home_save (disk : Disk) (buffers : Buffers) :
    (disk.save buffers).home = disk.home := by
  induction buffers with
  | nil => rfl
  | cons e buffers ih => exact ih

/-- **What saving does to a disk**: there are files at the places of buffers,
directories above them, and everything else is as it was. -/
theorem node?_save (disk : Disk) (buffers : Buffers) (q : Place) :
    (disk.save buffers).node? q = match bufferAt? buffers q with
      | some buffer => some (.file buffer.text.toUTF8)
      | none => if ∃ e ∈ buffers, q <+: e.1.place then some ((disk.node? q).getD .directory)
          else disk.node? q := by
  induction buffers with
  | nil => simp [save, bufferAt?]
  | cons e buffers ih =>
      rw [bufferAt?_cons]
      show ((disk.save buffers).put e.1.place (.file e.2.text.toUTF8)).node? q = _
      by_cases heq : e.1.place = q
      · rw [if_pos heq, ← heq, node?_put_self]
      · rw [if_neg heq, node?_put_of_ne (Ne.symm heq), ih]
        rcases bufferAt? buffers q with - | buffer
        · simp only [List.mem_cons, exists_eq_or_imp]
          by_cases he : q <+: e.1.place
          · by_cases hrest : ∃ e ∈ buffers, q <+: e.1.place <;> simp [he, hrest]
          · by_cases hrest : ∃ e ∈ buffers, q <+: e.1.place <;> simp [he, hrest]
        · simp

/-- Saving makes no place on the way to another one, nor that place. -/
def Unmade (disk : Disk) (buffers : Buffers) (place : Place) : Prop :=
  ∀ above, above <+: place → disk.node? above = none → (disk.save buffers).node? above = none

/-! ### Buffers that can be saved -/

/-- Buffers that can be saved, all at once: no path is that of a directory or
lies below a file or below another of them, and none is too long. -/
structure Savable (disk : Disk) (buffers : Buffers) : Prop where
  root : disk.node? [] = some .directory
  direct : ∀ e ∈ buffers, e.1.IsDirect
  fits : ∀ e ∈ buffers, Fits e.1.place
  free : ∀ e ∈ buffers, disk.node? e.1.place ≠ some .directory
  below : ∀ e ∈ buffers, ∀ above, above <+: e.1.place → above ≠ e.1.place →
    ∀ bytes, disk.node? above ≠ some (.file bytes)
  apart : ∀ e ∈ buffers, ∀ e' ∈ buffers, e.1.place <+: e'.1.place → e.1.place = e'.1.place

namespace Savable

variable {buffers : Buffers} {buffer : Buffer} {p : Path}

/-- A buffer is found by the place its path leads to. -/
theorem find?_eq (h : Savable disk buffers) (hp : p.IsDirect) :
    buffers.find? p = bufferAt? buffers p.place := by
  have hsame : ∀ e ∈ buffers, e.1.same p = decide (e.1.place = p.place) := by
    intro e he
    rw [Bool.eq_iff_iff, Path.same_iff, decide_eq_true_eq]
    exact (h.direct e he).same_iff_place hp
  rw [Buffers.find?, bufferAt?, List.find?_congr hsame]

/-- Above a buffer there are directories. -/
theorem node?_save_above (h : Savable disk buffers) {e : Path × Buffer} (he : e ∈ buffers)
    (habove : above <+: e.1.place) (hne : above ≠ e.1.place) :
    (disk.save buffers).node? above = some .directory := by
  have hnone : bufferAt? buffers above = none := by
    rcases hb : bufferAt? buffers above with - | buffer
    · rfl
    · obtain ⟨e', he', rfl⟩ := exists_of_bufferAt? hb
      exact absurd (h.apart e' he' e he habove) hne
  rw [node?_save, hnone]
  dsimp only
  rw [if_pos ⟨e, he, habove⟩]
  rcases hnode : disk.node? above with - | (bytes | -)
  · rfl
  · exact absurd hnode (h.below e he above habove hne bytes)
  · rfl

/-- Where there is no buffer, directories are directories. -/
theorem node?_save_of_directory (h : Savable disk buffers)
    (hnode : disk.node? q = some .directory) :
    (disk.save buffers).node? q = some .directory := by
  have hnone : bufferAt? buffers q = none := by
    rcases hb : bufferAt? buffers q with - | buffer
    · rfl
    · obtain ⟨e, he, rfl⟩ := exists_of_bufferAt? hb
      exact absurd hnode (h.free e he)
  rw [node?_save, hnone, hnode]
  simp

/-- A file that is no buffer stays as it is. -/
theorem node?_save_eq_file_iff (h : Savable disk buffers) (hnone : bufferAt? buffers q = none) :
    (disk.save buffers).node? q = some (.file bytes) ↔ disk.node? q = some (.file bytes) := by
  rw [node?_save, hnone]
  dsimp only
  split
  · next hbelow =>
      obtain ⟨e, he, hq⟩ := hbelow
      have hne := (ne_of_bufferAt?_eq_none hnone he).symm
      rcases hnode : disk.node? q with - | (found | -)
      · simp
      · exact absurd hnode (h.below e he q hq hne found)
      · simp
  · rfl

/-- What is reached on the saved disk was reached before, and the other way
round, as far as files go that are no buffers. -/
theorem reachable_save_iff (h : Savable disk buffers)
    (hnode : disk.node? place = some (.file bytes)) :
    (disk.save buffers).Reachable place ↔ disk.Reachable place := by
  constructor
  · intro hway above habove hne
    have hsaved := hway above habove hne
    have hnone : bufferAt? buffers above = none := by
      rcases hb : bufferAt? buffers above with - | buffer
      · rfl
      · rw [node?_save, hb] at hsaved
        cases hsaved
    rcases hold : disk.node? above with - | (found | -)
    · exact absurd hold (node?_above_ne_none (by rw [hnode]; simp) habove)
    · rw [(h.node?_save_eq_file_iff hnone).mpr hold] at hsaved
      cases hsaved
    · rfl
  · intro hway above habove hne
    exact h.node?_save_of_directory (hway above habove hne)

/-- The file that a buffer was saved to. -/
theorem found_save (h : Savable disk buffers) (hb : bufferAt? buffers place = some buffer) :
    place ≠ [] ∧ Fits place ∧ (disk.save buffers).Reachable place ∧
      (disk.save buffers).node? place = some (.file buffer.text.toUTF8) := by
  obtain ⟨e, he, rfl⟩ := exists_of_bufferAt? hb
  refine ⟨?_, h.fits e he, fun above => h.node?_save_above he, by rw [node?_save, hb]⟩
  intro hnil
  apply h.free e he
  rw [hnil]
  exact h.root

theorem isFile_save (h : Savable disk buffers) (hn : Path.Named place) :
    (disk.save buffers).isFile (pathOf place) = true ↔
      (bufferAt? buffers place).isSome = true ∨ disk.isFile (pathOf place) = true := by
  rcases hb : bufferAt? buffers place with - | buffer
  · simp only [Option.isSome_none, Bool.false_eq_true, false_or, isFile_pathOf hn]
    constructor
    · rintro ⟨hne, hfits, hway, bytes, hnode⟩
      have hold := (h.node?_save_eq_file_iff hb).mp hnode
      exact ⟨hne, hfits, (h.reachable_save_iff hold).mp hway, bytes, hold⟩
    · rintro ⟨hne, hfits, hway, bytes, hnode⟩
      exact ⟨hne, hfits, (h.reachable_save_iff hnode).mpr hway, bytes,
        (h.node?_save_eq_file_iff hb).mpr hnode⟩
  · obtain ⟨hne, hfits, hway, hnode⟩ := h.found_save hb
    simp only [Option.isSome_some, true_or, iff_true, isFile_pathOf hn]
    exact ⟨hne, hfits, hway, _, hnode⟩

end Savable

end Disk

/-! ### Reading what was saved -/

namespace Sources

/-- `saved` reads from files what `sources` reads from files and buffers. -/
structure Mirrors (sources saved : Sources) : Prop where
  home : saved.disk.home = sources.disk.home
  has : ∀ p : Path, p.IsPlain → saved.has p = sources.has p
  read : ∀ p : Path, p.IsPlain → sources.has p = true →
    saved.read p = (sources.read p).map fun r => (r.1, none)

/-- **Saving changes nothing that is read**: at every plain path the same text
is read after the buffers were saved and closed. -/
theorem mirrors_save {disk : Disk} {buffers : Buffers} (h : disk.Savable buffers) :
    Mirrors ⟨disk, buffers⟩ ⟨disk.save buffers, []⟩ where
  home := Disk.home_save disk buffers
  has := by
    intro p hp
    rw [has, has, Bool.eq_iff_iff, h.find?_eq hp.1, Bool.or_eq_true, Bool.or_eq_true,
      hp.eq_pathOf, Path.place_pathOf hp.named, h.isFile_save hp.named]
    simp
  read := by
    intro p hp hhas
    rw [has, h.find?_eq hp.1, Bool.or_eq_true] at hhas
    rw [read, read, h.find?_eq hp.1]
    dsimp only [Buffers.find?_nil]
    rcases hb : Disk.bufferAt? buffers p.place with - | buffer
    · -- the file that is read is the same file
      rw [hb] at hhas
      have hfile := hhas.resolve_left (by simp)
      rw [hp.eq_pathOf, Disk.isFile_pathOf hp.named] at hfile
      obtain ⟨hne, hfits, hway, bytes, hnode⟩ := hfile
      have hsaved : (disk.save buffers).readBytes p = .ok bytes := by
        rw [hp.eq_pathOf]
        exact Disk.readBytes_pathOf hp.named hne hfits ((h.reachable_save_iff hnode).mpr hway)
          ((h.node?_save_eq_file_iff hb).mpr hnode)
      have hold : disk.readBytes p = .ok bytes := by
        rw [hp.eq_pathOf]
        exact Disk.readBytes_pathOf hp.named hne hfits hway hnode
      have hread : (disk.save buffers).read p = disk.read p := by
        rw [Disk.read, Disk.read, hsaved, hold]
      rw [hread]
      rcases disk.read p with reason | text <;> rfl
    · -- the text of the buffer is in the file
      obtain ⟨hne, hfits, hway, hnode⟩ := h.found_save hb
      have hsaved : (disk.save buffers).readBytes p = .ok buffer.text.toUTF8 := by
        rw [hp.eq_pathOf]
        exact Disk.readBytes_pathOf hp.named hne hfits hway hnode
      have htext : String.fromUTF8? buffer.text.toUTF8 = some buffer.text :=
        dif_pos buffer.text.isValidUTF8
      rw [Disk.read_eq_ok_iff.mpr ⟨_, hsaved, htext⟩]
      rfl

/-- Why there is nothing to read at a plain path stays the same, if saving
makes no place on the way to it. -/
theorem read_save_of_unmade {disk : Disk} {buffers : Buffers} (h : disk.Savable buffers) {p : Path}
    (hp : p.IsPlain) (hhas : has ⟨disk, buffers⟩ p = false)
    (hunmade : disk.Unmade buffers p.place) :
    read ⟨disk.save buffers, []⟩ p = read ⟨disk, buffers⟩ p := by
  rw [has, h.find?_eq hp.1, Bool.or_eq_false_iff] at hhas
  obtain ⟨hbuffer, hfile⟩ := hhas
  have hnone : Disk.bufferAt? buffers p.place = none := by simpa using hbuffer
  have halike : ∀ above, above <+: p.place →
      ((disk.save buffers).node? above).map Disk.isDirectory
        = (disk.node? above).map Disk.isDirectory := by
    intro above habove
    rcases hold : disk.node? above with - | (bytes | -)
    · rw [hunmade above habove hold]
    · rw [Disk.node?_save, hold]
      split
      · rfl
      · split <;> rfl
    · rw [h.node?_save_of_directory hold]
  have hbytes := Disk.readBytes_alike hp.1 halike hfile
  rw [read, read, h.find?_eq hp.1, hnone]
  dsimp only [Buffers.find?_nil]
  rw [Disk.read, Disk.read, hbytes]

end Sources

end LatexIndex
