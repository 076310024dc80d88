/-
LatexIndex/Proofs/PlainPaths.lean

Absolute paths without `..`, and where they lead.

The parts of such a path are the root and then names, so the path stands for a
place and nothing else (`IsDirect.parts_eq`).  Normalising it changes at most
how it is written: what it gives is the plain path of that place
(`IsDirect.normalize_eq`).  So plain paths and places are the same thing: two
plain paths with the same parts are equal, and going up from one goes up from
its place (`directory_pathOf`, `exists_of_mem_ancestors`).
-/
import LatexIndex.Proofs.Lookup

namespace LatexIndex.Path

variable {p q : Path}

/-! ### Absolute paths -/

/-- A path is absolute if its parts begin with the root. -/
theorem isAbsolute_iff_parts : p.isAbsolute = true ↔ p.parts.head? = some .root := by
  rw [isAbsolute_iff, parts_eq_partsOf, partsOf, leadOf]
  constructor
  · intro h
    rw [if_pos h]
    rfl
  · intro h
    by_contra hnot
    rw [if_neg hnot] at h
    split at h
    · cases h
    · -- no segment stands for the root
      obtain ⟨s, -, hs⟩ := List.mem_filterMap.mp (List.mem_of_mem_head? h)
      exact partOf?_ne_root s hs

/-- Absolute and without `..`. -/
def IsDirect (p : Path) : Prop :=
  p.isAbsolute = true ∧ .up ∉ p.parts

instance (p : Path) : Decidable p.IsDirect :=
  inferInstanceAs (Decidable (_ ∧ _))

/-- The place that the parts of a path lead to from the root. -/
def place (p : Path) : Place :=
  Disk.walk [] p.parts

theorem place_congr (h : p.parts = q.parts) : p.place = q.place := by
  rw [place, h, place]

theorem exists_names_of_inner {parts : List Part} (h : ∀ x ∈ parts, Inner x)
    (hup : .up ∉ parts) : ∃ names : List String, parts = names.map .name := by
  induction parts with
  | nil => exact ⟨[], rfl⟩
  | cons x parts ih =>
      obtain ⟨names, rfl⟩ := ih (fun y hy => h y (List.mem_cons_of_mem x hy))
        fun hmem => hup (List.mem_cons_of_mem x hmem)
      rcases (h x List.mem_cons_self).eq_up_or_name with rfl | ⟨n, rfl⟩
      · exact absurd List.mem_cons_self hup
      · exact ⟨n :: names, rfl⟩

/-- The parts after the root are inner ones. -/
theorem inner_of_isAbsolute (h : p.isAbsolute = true) :
    ∃ rest, p.parts = .root :: rest ∧ ∀ x ∈ rest, Inner x := by
  refine ⟨p.segments.filterMap partOf?, ?_, ?_⟩
  · rw [parts_eq_partsOf, partsOf, leadOf, if_pos ((isAbsolute_iff p).mp h)]
    rfl
  · intro x hx
    obtain ⟨s, hs, hsx⟩ := List.mem_filterMap.mp hx
    exact inner_of_partOf? (slash_notMem_of_mem_segments hs) hsx

namespace IsDirect

/-- The parts of a direct path are the root and the names of its place. -/
theorem parts_eq (h : p.IsDirect) : p.parts = .root :: p.place.map .name := by
  obtain ⟨rest, hrest, hinner⟩ := inner_of_isAbsolute h.1
  have hup : .up ∉ rest := fun hmem => h.2 (by rw [hrest]; exact List.mem_cons_of_mem _ hmem)
  obtain ⟨names, rfl⟩ := exists_names_of_inner hinner hup
  rw [place, hrest, Disk.walk_cons, Disk.walk_names]
  rfl

theorem inner_name (h : p.IsDirect) {n : String} (hn : n ∈ p.place) : Inner (.name n) := by
  obtain ⟨rest, hrest, hinner⟩ := inner_of_isAbsolute h.1
  have heq := h.parts_eq
  rw [hrest] at heq
  obtain ⟨-, rfl⟩ := List.cons.inj heq
  exact hinner _ (List.mem_map_of_mem hn)

theorem up_notMem_segments (h : p.IsDirect) : ".." ∉ p.segments := by
  intro hmem
  refine h.2 ?_
  rw [parts_eq_partsOf, partsOf]
  exact List.mem_append_right _ (List.mem_filterMap.mpr ⟨"..", hmem, rfl⟩)

/-- The segments of a direct path lead to its place. -/
theorem walk_segments (h : p.IsDirect) :
    Disk.walk [] (p.segments.filterMap partOf?) = p.place := by
  rw [place, parts_eq_partsOf, partsOf, leadOf, if_pos ((isAbsolute_iff p).mp h.1)]
  rfl

end IsDirect

/-! ### Normal parts -/

theorem foldl_normalStep_names (done : List Part) (names : List String) :
    (names.map Part.name).foldl normalStep done = (names.map Part.name).reverse ++ done := by
  induction names generalizing done with
  | nil => rfl
  | cons n names ih =>
      rw [List.map_cons, List.foldl_cons, ih, List.reverse_cons, List.append_assoc]
      rfl

/-- What is normal stays as it is. -/
theorem IsNormal.normalParts_eq {parts : List Part} (h : IsNormal parts) :
    normalParts parts = parts := by
  obtain ⟨start, hstart, names, rfl, -⟩ := h
  rw [normalParts, List.foldl_append, foldl_normalStep_names, List.reverse_append,
    List.reverse_reverse]
  simp only [List.mem_cons, List.not_mem_nil, or_false] at hstart
  rcases hstart with rfl | rfl | rfl | rfl <;> rfl

theorem normalize_normalize (p : Path) : p.normalize.normalize = p.normalize := by
  rw [normalize, parts_normalize, (isNormal_normalParts p).normalParts_eq]
  rfl

theorem IsDirect.isNormal (h : p.IsDirect) : IsNormal p.parts :=
  ⟨[.root], by simp, p.place, h.parts_eq, fun _ => h.inner_name⟩

/-- A direct path leads where it led when it is normalised. -/
theorem IsDirect.parts_normalize (h : p.IsDirect) : p.normalize.parts = p.parts := by
  rw [Path.parts_normalize, h.isNormal.normalParts_eq]

/-- Normalising a direct path writes its place plainly. -/
theorem IsDirect.normalize_eq (h : p.IsDirect) : p.normalize = Disk.pathOf p.place := by
  rw [normalize, h.isNormal.normalParts_eq, h.parts_eq]
  rfl

/-! ### Plain paths -/

/-- Absolute, without `..`, and written plainly. -/
def IsPlain (p : Path) : Prop :=
  p.IsDirect ∧ p.normalize = p

instance (p : Path) : Decidable p.IsPlain :=
  inferInstanceAs (Decidable (_ ∧ _))

/-- The names of a place, none of which means anything else in a path. -/
def Named (place : Place) : Prop :=
  ∀ n ∈ place, Inner (.name n)

variable {place above : Place} {n : String}

theorem Named.of_begins (h : Named place) (ha : above <+: place) : Named above :=
  fun n hn => h n (ha.subset hn)

theorem parts_pathOf (h : Named place) :
    (Disk.pathOf place).parts = .root :: place.map .name := by
  apply parts_ofParts_root
  intro x hx
  obtain ⟨n, hn, rfl⟩ := List.mem_map.mp hx
  exact h n hn

theorem isDirect_pathOf (h : Named place) : (Disk.pathOf place).IsDirect := by
  constructor
  · rw [isAbsolute_iff_parts, parts_pathOf h]
    rfl
  · rw [parts_pathOf h]
    simp

@[simp] theorem place_pathOf (h : Named place) : (Disk.pathOf place).place = place := by
  rw [Path.place, parts_pathOf h, Disk.walk_cons, Disk.walk_names]
  rfl

theorem isPlain_pathOf (h : Named place) : (Disk.pathOf place).IsPlain :=
  ⟨isDirect_pathOf h, by rw [(isDirect_pathOf h).normalize_eq, place_pathOf h]⟩

theorem IsDirect.named (h : p.IsDirect) : Named p.place :=
  fun _ => h.inner_name

namespace IsPlain

theorem eq_pathOf (h : p.IsPlain) : p = Disk.pathOf p.place := by
  rw [← h.1.normalize_eq, h.2]

theorem named (h : p.IsPlain) : Named p.place :=
  h.1.named

/-- A plain path is known by its place. -/
theorem eq_of_place (hp : p.IsPlain) (hq : q.IsPlain) (h : p.place = q.place) : p = q := by
  rw [hp.eq_pathOf, h, ← hq.eq_pathOf]

theorem eq_of_parts (hp : p.IsPlain) (hq : q.IsPlain) (h : p.parts = q.parts) : p = q :=
  hp.eq_of_place hq (place_congr h)

end IsPlain

/-- A plain path has the parts of a direct one exactly if it leads to the
same place. -/
theorem IsDirect.same_iff_place (hp : p.IsDirect) (hq : q.IsDirect) :
    p.parts = q.parts ↔ p.place = q.place := by
  refine ⟨place_congr, fun h => ?_⟩
  rw [hp.parts_eq, hq.parts_eq, h]

/-! ### Going up -/

/-- How the plain path of a place below the root is written. -/
theorem pathOf_eq_intercalate (h : place ≠ []) :
    Disk.pathOf place = ⟨String.ofList (['/'].intercalate (("" :: place).map String.toList))⟩ := by
  obtain ⟨n, rest, rfl⟩ := List.exists_cons_of_ne_nil h
  simp [Disk.pathOf, ofParts, Function.comp_def, Part.text]

theorem segments_pathOf (h : Named place) (hne : place ≠ []) :
    (Disk.pathOf place).segments = "" :: place := by
  obtain ⟨n, rest, rfl⟩ := List.exists_cons_of_ne_nil hne
  have hinner : ∀ y ∈ Part.name n :: rest.map Part.name, Inner y := by
    intro y hy
    obtain ⟨m, hm, rfl⟩ := List.mem_map.mp (show y ∈ (n :: rest).map Part.name from hy)
    exact h m hm
  have hseg := segments_ofParts_root hinner
  simpa [Disk.pathOf, Function.comp_def, Part.text] using hseg

theorem trimIdle_of_named (h : Named place) : trimIdle place = place := by
  rw [trimIdle_eq_rdropWhile, List.rdropWhile_eq_self_iff]
  intro hne
  have hidle := (h _ (List.getLast_mem hne)).not_idle
  simpa [Part.text] using hidle

/-- The path above a plain path is the plain path of the place above. -/
theorem parent?_pathOf (h : Named (place ++ [n])) :
    (Disk.pathOf (place ++ [n])).parent? = some (Disk.pathOf place) := by
  have hsegments := segments_pathOf h (by simp)
  have habsolute := (isDirect_pathOf h).1
  have hhead : (Disk.pathOf (place ++ [n])).headLength = 1 := by
    rw [headLength, habsolute]
    rfl
  have hbody : (Disk.pathOf (place ++ [n])).body = place ++ [n] := by
    rw [body, hhead, hsegments, List.drop_one, List.tail_cons, trimIdle_of_named h]
  have habove : trimIdle place = place :=
    trimIdle_of_named (h.of_begins (List.prefix_append _ _))
  rw [parent?, hbody, if_neg (by simp), List.dropLast_concat, habove, withBody, habsolute]
  rcases place with - | ⟨m, rest⟩
  · rfl
  · rw [if_neg (by simp), hhead, hsegments, pathOf_eq_intercalate (List.cons_ne_nil m rest)]
    rfl

theorem parent?_pathOf_nil : (Disk.pathOf []).parent? = none := by
  decide

theorem directory_pathOf (h : Named (place ++ [n])) :
    (Disk.pathOf (place ++ [n])).directory = Disk.pathOf place := by
  rw [directory, parent?_pathOf h]
  rfl

/-- What is above a plain path are the plain paths of the places above. -/
theorem exists_of_mem_ancestors (h : Named place) (hp : p ∈ (Disk.pathOf place).ancestors) :
    ∃ above, above <+: place ∧ p = Disk.pathOf above := by
  unfold ancestors at hp
  generalize (Disk.pathOf place).segments.length = fuel at hp
  induction fuel generalizing place with
  | zero => exact ⟨place, List.prefix_rfl, List.mem_singleton.mp hp⟩
  | succ fuel ih =>
      rw [ancestorsUpTo] at hp
      rcases List.mem_cons.mp hp with rfl | hp
      · exact ⟨place, List.prefix_rfl, rfl⟩
      · rcases List.eq_nil_or_concat' place with rfl | ⟨init, n, rfl⟩
        · rw [parent?_pathOf_nil] at hp
          cases hp
        · rw [parent?_pathOf h] at hp
          have hinit : init <+: init ++ [n] := List.prefix_append _ _
          obtain ⟨above, habove, rfl⟩ := ih (h.of_begins hinit) hp
          exact ⟨above, habove.trans hinit, rfl⟩

end LatexIndex.Path
