/-
LatexIndex/Proofs/Spelling.lean

How much the way a path is written matters to looking it up.

What is found at a path depends on its parts and on two things more.  A slash
after a name asks for a directory, and a text may be longer than a system
takes.  The paths above another one are *tidy*: they do not end in an idle
segment.  So one directory reached in two ways is found in both or in neither
(`lookUp_congr_of_respelled`), unless one of the two texts is too long.  The plain
way to write a path is the shortest (`ofParts_sublist`), so that can only
happen to a path that is not plainly written; and it can happen to any path
(`not_short_padded`).
-/
import LatexIndex.Proofs.Ancestors
import LatexIndex.Proofs.Lookup
import LatexIndex.Proofs.PlainPaths

namespace LatexIndex

open Text

/-! ### Pieces put together -/

theorem Text.mem_intercalate {sep : List Char} {c : Char} (hc : c ∉ sep) {ps : List (List Char)} :
    c ∈ sep.intercalate ps ↔ ∃ p ∈ ps, c ∈ p := by
  induction ps with
  | nil => simp
  | cons p ps ih =>
      rcases ps with - | ⟨q, ps⟩
      · simp
      · simp only [List.intercalate_cons_cons, List.mem_append, ih]
        simp [hc]

/-- Fewer pieces have fewer characters. -/
theorem Text.intercalate_sublist {sep : List Char} {as bs : List (List Char)} (h : as.Sublist bs) :
    (sep.intercalate as).Sublist (sep.intercalate bs) := by
  induction h with
  | slnil => exact .refl _
  | @cons as bs b h ih =>
      rcases bs with - | ⟨b', bs⟩
      · rw [List.sublist_nil.mp h]
        exact List.nil_sublist _
      · rw [List.intercalate_cons_cons]
        exact ih.trans (List.sublist_append_right (b ++ sep) _)
  | @cons_cons as bs a h ih =>
      rcases as with - | ⟨a', as⟩
      · rcases bs with - | ⟨b', bs⟩
        · exact .refl _
        · rw [List.intercalate_cons_cons, List.append_assoc, List.intercalate_singleton]
          exact List.sublist_append_left a _
      · rcases bs with - | ⟨b', bs⟩
        · cases h
        · rw [List.intercalate_cons_cons, List.intercalate_cons_cons]
          exact ih.append_left (a ++ sep)

theorem Text.utf8ByteSize_le_of_sublist {as bs : List Char} (h : as.Sublist bs) :
    (String.ofList as).utf8ByteSize ≤ (String.ofList bs).utf8ByteSize := by
  induction h with
  | slnil => exact Nat.le_refl _
  | cons b _ ih =>
      rw [String.ofList_cons, String.utf8ByteSize_append]
      omega
  | cons_cons a _ ih =>
      rw [String.ofList_cons, String.ofList_cons, String.utf8ByteSize_append,
        String.utf8ByteSize_append]
      omega

namespace Path

variable {p q : Path}

/-! ### Segments that stand for parts -/

theorem intercalate_segments (p : Path) :
    ['/'].intercalate (p.segments.map String.toList) = p.text.toList := by
  rw [segments, List.map_map]
  have hid : String.toList ∘ String.ofList = id := by
    funext cs
    exact String.toList_ofList
  rw [hid, List.map_id, List.intercalate_splitOn]

theorem text_of_partOf? {s : String} {x : Part} (h : partOf? s = some x) : x.text = s := by
  unfold partOf? at h
  split at h
  · cases h
  · split at h
    · next hup =>
        obtain rfl := Option.some.inj h
        exact hup.symm
    · obtain rfl := Option.some.inj h
      rfl

theorem map_text_filterMap (segs : List String) :
    (segs.filterMap partOf?).map Part.text = segs.filter (!isIdle ·) := by
  induction segs with
  | nil => rfl
  | cons s segs ih =>
      rcases hs : partOf? s with - | x
      · have hidle := partOf?_eq_none_iff.mp hs
        rw [List.filterMap_cons_none hs, ih, List.filter_cons_of_neg (by simp [hidle])]
      · have hidle : isIdle s = false := by
          rw [← Bool.not_eq_true, ← partOf?_eq_none_iff, hs]
          simp
        rw [List.filterMap_cons_some hs, List.map_cons, ih, text_of_partOf? hs,
          List.filter_cons_of_pos (by simp [hidle])]

/-- The parts of the segments, without what the path begins with. -/
theorem filterMap_segments (p : Path) :
    p.segments.filterMap partOf? = p.parts.filter fun x => x ≠ .root ∧ x ≠ .here := by
  have hlead : (leadOf p.segments).filter (fun x => x ≠ .root ∧ x ≠ .here) = [] := by
    unfold leadOf
    grind
  rw [parts_eq_partsOf, partsOf, List.filter_append, hlead, List.nil_append,
    List.filter_eq_self.mpr]
  intro x hx
  obtain ⟨s, -, hs⟩ := List.mem_filterMap.mp hx
  unfold partOf? at hs
  grind

/-- The segments that stand for parts depend on the parts only. -/
theorem filter_segments_congr (h : p.parts = q.parts) :
    p.segments.filter (!isIdle ·) = q.segments.filter (!isIdle ·) := by
  rw [← map_text_filterMap, ← map_text_filterMap, filterMap_segments, filterMap_segments, h]

/-- A character other than the slash and the dot is in the text exactly if it
is in a segment that stands for a part. -/
theorem mem_text_iff {c : Char} (hslash : c ≠ '/') (hdot : c ≠ '.') :
    c ∈ p.text.toList ↔ ∃ s ∈ p.segments.filter (!isIdle ·), c ∈ s.toList := by
  have hsep : c ∉ ['/'] := by simpa using hslash
  rw [← intercalate_segments, mem_intercalate hsep]
  constructor
  · rintro ⟨cs, hcs, hc⟩
    obtain ⟨s, hs, rfl⟩ := List.mem_map.mp hcs
    refine ⟨s, List.mem_filter.mpr ⟨hs, ?_⟩, hc⟩
    -- neither idle segment has the character
    by_contra hidle
    simp only [isIdle, Bool.not_eq_true, Bool.not_eq_false', Bool.or_eq_true, beq_iff_eq] at hidle
    rcases hidle with rfl | rfl
    · simp at hc
    · simp [hdot] at hc
  · rintro ⟨s, hs, hc⟩
    exact ⟨s.toList, List.mem_map_of_mem (List.mem_filter.mp hs).1, hc⟩

/-! ### Tidy and short paths -/

/-- The path does not end in an idle segment, unless it is nothing else. -/
def Tidy (p : Path) : Prop :=
  (p.text = "" ∨ p.text = "/" ∨ p.text = ".") ∨
    ∃ init last, p.segments = init ++ [last] ∧ isIdle last = false

/-- The text is no longer than a system takes. -/
def Short (p : Path) : Prop :=
  p.text.utf8ByteSize ≤ Disk.longestPath

instance (p : Path) : Decidable p.Short :=
  inferInstanceAs (Decidable (_ ≤ _))

theorem Short.of_sublist (h : p.Short) (hq : q.text.toList.Sublist p.text.toList) : q.Short := by
  have hle := utf8ByteSize_le_of_sublist hq
  rw [String.ofList_toList, String.ofList_toList] at hle
  exact Nat.le_trans hle h

theorem tidy_withBody (p : Path) {segs : List String} (h : trimIdle segs <+: p.body) :
    (p.withBody (trimIdle segs)).Tidy := by
  rw [withBody]
  rcases List.eq_nil_or_concat' (trimIdle segs) with hnil | ⟨init, last, hlast⟩
  · -- what is left is the beginning of the path
    left
    by_cases habs : p.isAbsolute = true
    · rw [if_pos (by simp [habs, hnil])]
      exact .inr (.inl rfl)
    · rw [if_neg (by simp [habs]), hnil, List.append_nil, take_headLength, leadOf,
        if_neg (mt (isAbsolute_iff p).mpr habs)]
      split
      · exact .inr (.inr rfl)
      · exact .inl rfl
  · right
    have hslash : ∀ s ∈ p.segments.take p.headLength ++ trimIdle segs, '/' ∉ s.toList := by
      intro s hs
      refine slash_notMem_of_mem_segments (p := p) ?_
      rcases List.mem_append.mp hs with hs | hs
      · exact List.mem_of_mem_take hs
      · exact List.mem_of_mem_drop ((trimIdle_begins _).subset (h.subset hs))
    refine ⟨p.segments.take p.headLength ++ init, last, ?_, isIdle_last_of_trimIdle hlast⟩
    rw [if_neg (by simp [hlast]), segments_intercalate (by simp [hlast]) hslash, hlast,
      List.append_assoc]

theorem withBody_sublist (p : Path) {b : List String} (h : b <+: p.body) :
    (p.withBody b).text.toList.Sublist p.text.toList := by
  rw [withBody]
  split
  · next hroot =>
      rw [Bool.and_eq_true, isAbsolute, beq_iff_eq] at hroot
      obtain ⟨rest, hrest⟩ := List.head?_eq_some_iff.mp hroot.1
      rw [hrest]
      exact (List.nil_sublist rest).cons_cons '/'
  · rw [String.toList_ofList, ← intercalate_segments p]
    apply intercalate_sublist
    apply List.Sublist.map
    have hdrop : b.Sublist (p.segments.drop p.headLength) :=
      (h.trans (trimIdle_begins _)).sublist
    have hsub := hdrop.append_left (p.segments.take p.headLength)
    rwa [List.take_append_drop] at hsub

theorem tidy_of_parent? (h : p.parent? = some q) : q.Tidy := by
  rw [parent?] at h
  split at h
  · split at h
    · cases h
    · obtain rfl := Option.some.inj h
      exact .inl (.inl rfl)
  · obtain rfl := Option.some.inj h
    exact tidy_withBody p ((trimIdle_begins _).trans (List.dropLast_prefix _))

theorem short_of_parent? (h : p.parent? = some q) (hp : p.Short) : q.Short := by
  rw [parent?] at h
  refine hp.of_sublist ?_
  split at h
  · split at h
    · cases h
    · obtain rfl := Option.some.inj h
      exact List.nil_sublist _
  · obtain rfl := Option.some.inj h
    exact withBody_sublist p ((trimIdle_begins _).trans (List.dropLast_prefix _))

theorem tidy_directory (p : Path) : p.directory.Tidy := by
  rw [directory]
  rcases h : p.parent? with - | q
  · exact .inl (.inr (.inl rfl))
  · exact tidy_of_parent? h

theorem short_directory (hp : p.Short) : p.directory.Short := by
  rw [directory]
  rcases h : p.parent? with - | q
  · exact (by decide : Short ⟨"/"⟩)
  · exact short_of_parent? h hp

theorem filter_segments_eq_nil (h : p.text = "" ∨ p.text = "/" ∨ p.text = ".") :
    p.segments.filter (!isIdle ·) = [] := by
  obtain ⟨text⟩ := p
  rcases h with rfl | rfl | rfl <;> decide

theorem eq_ofParts_of_idle (h : p.text = "" ∨ p.text = "/" ∨ p.text = ".") :
    p = ofParts p.parts := by
  obtain ⟨text⟩ := p
  rcases h with rfl | rfl | rfl <;> decide

/-- Tidy paths with the same parts are written alike or both end in a part. -/
theorem Tidy.eq_or_last (hp : p.Tidy) (hq : q.Tidy) (h : p.parts = q.parts) :
    p = q ∨ (∃ init last, p.segments = init ++ [last] ∧ isIdle last = false) ∧
      ∃ init last, q.segments = init ++ [last] ∧ isIdle last = false := by
  have hfilter := filter_segments_congr h
  rcases hp with hp | ⟨init, last, hlast, hidle⟩
  · rcases hq with hq | ⟨init, last, hlast, hidle⟩
    · left
      rw [eq_ofParts_of_idle hp, eq_ofParts_of_idle hq, h]
    · rw [filter_segments_eq_nil hp, hlast] at hfilter
      simp [hidle] at hfilter
  · rcases hq with hq | hq
    · rw [filter_segments_eq_nil hq, hlast] at hfilter
      simp [hidle] at hfilter
    · exact .inr ⟨⟨init, last, hlast, hidle⟩, hq⟩

/-! ### One directory in two ways -/

/-- Two tidy and short ways to write one directory. -/
structure Respelled (p q : Path) : Prop where
  parts : p.parts = q.parts
  tidy : p.Tidy ∧ q.Tidy
  short : p.Short ∧ q.Short

theorem respelled_directory (h : p.parts = q.parts) (hp : p.Short) (hq : q.Short) :
    Respelled p.directory q.directory :=
  ⟨parts_directory_congr h, ⟨tidy_directory p, tidy_directory q⟩, short_directory hp,
    short_directory hq⟩

theorem Respelled.ancestors (h : Respelled p q) :
    List.Forall₂ Respelled p.ancestors q.ancestors := by
  refine ancestors_congr Respelled.parts ?_ h
  intro a b a' b' hab ha hb
  refine ⟨?_, ⟨tidy_of_parent? ha, tidy_of_parent? hb⟩, short_of_parent? ha hab.short.1,
    short_of_parent? hb hab.short.2⟩
  rw [parts_of_parent? ha, parts_of_parent? hb, hab.parts]

/-! ### The plain way to write a path -/

theorem ofParts_of_head {parts : List Part} (h : parts.head? ≠ some .root) :
    ofParts parts = ⟨String.ofList (['/'].intercalate (parts.map (·.text.toList)))⟩ := by
  unfold ofParts
  split
  · simp at h
  · rfl

/-- The plain way to write a path leaves characters out. -/
theorem ofParts_sublist (p : Path) :
    (ofParts p.parts).text.toList.Sublist p.text.toList := by
  have htext : ∀ segs : List String, ((segs.filterMap partOf?).map (·.text.toList)).Sublist
      (segs.map String.toList) := by
    intro segs
    rw [← Function.comp_def, ← List.map_map, map_text_filterMap]
    exact List.filter_sublist.map _
  rw [← intercalate_segments p]
  rcases hs : p.segments with - | ⟨first, more⟩
  · exact absurd hs (segments_ne_nil p)
  by_cases habs : p.isAbsolute = true
  · -- the slash at the beginning, and then the other segments
    have hparts : p.parts = .root :: more.filterMap partOf? := by simp [parts, hs, habs]
    obtain ⟨hfirst, hmore⟩ := (isAbsolute_iff p).mp habs
    rw [hs, List.tail_cons] at hmore
    obtain ⟨second, more, rfl⟩ := List.exists_cons_of_ne_nil hmore
    obtain rfl : first = "" := by simpa [hs] using hfirst
    rw [hparts, ofParts, String.toList_ofList]
    exact (intercalate_sublist (htext _)).cons_cons '/'
  · have hhead : p.parts.head? ≠ some .root := mt isAbsolute_iff_parts.mpr habs
    rw [ofParts_of_head hhead, String.toList_ofList]
    apply intercalate_sublist
    by_cases hdot : first = "."
    · have hparts : p.parts = .here :: more.filterMap partOf? := by simp [parts, hs, habs, hdot]
      rw [hparts, hdot]
      exact (htext more).cons_cons _
    · have hparts : p.parts = (first :: more).filterMap partOf? := by
        simp [parts, hs, habs, hdot]
      rw [hparts]
      exact htext _

theorem short_ofParts (h : p.Short) : (ofParts p.parts).Short :=
  h.of_sublist (ofParts_sublist p)

/-- The path is plainly written, or short enough for any system. -/
def Spelled (p : Path) : Prop :=
  p = ofParts p.parts ∨ p.Short

instance (p : Path) : Decidable p.Spelled :=
  inferInstanceAs (Decidable (_ ∨ _))

/-- Two ways to write a path are one, or both are short enough. -/
theorem Spelled.eq_or_short (hp : p.Spelled) (hq : q.Spelled) (h : p.parts = q.parts) :
    p = q ∨ p.Short ∧ q.Short := by
  rcases hp with hp | hp
  · rcases hq with hq | hq
    · exact .inl (by rw [hp, hq, h])
    · have hshort := short_ofParts hq
      rw [← h, ← hp] at hshort
      exact .inr ⟨hshort, hq⟩
  · rcases hq with hq | hq
    · have hshort := short_ofParts hp
      rw [h, ← hq] at hshort
      exact .inr ⟨hp, hshort⟩
    · exact .inr ⟨hp, hq⟩

/-! ### Slashes too many -/

variable {n : Nat} {names : Place} {name : String}

/-- The way down some names, written with `n` slashes too many. -/
def padded (n : Nat) (names : Place) : Path :=
  ⟨String.ofList (['/'].intercalate ((List.replicate (n + 1) "" ++ names).map String.toList))⟩

theorem segments_padded (n : Nat) (h : Named names) :
    (padded n names).segments = List.replicate (n + 1) "" ++ names := by
  refine segments_intercalate (by simp) fun s hs => ?_
  rcases List.mem_append.mp hs with hs | hs
  · rw [List.eq_of_mem_replicate hs]
    simp
  · exact (h s hs).2

theorem isAbsolute_padded (n : Nat) (h : Named (names ++ [name])) :
    (padded n (names ++ [name])).isAbsolute = true := by
  rw [isAbsolute_iff, segments_padded n h, List.replicate_succ]
  simp

theorem parts_padded (n : Nat) (h : Named (names ++ [name])) :
    (padded n (names ++ [name])).parts = .root :: (names ++ [name]).map .name := by
  have hlead := (isAbsolute_iff _).mp (isAbsolute_padded n h)
  have hnames : (names ++ [name]).filterMap partOf? = (names ++ [name]).map .name := by
    rw [← List.filterMap_eq_map]
    exact List.filterMap_congr fun s hs => (h s hs).1
  rw [parts_eq_partsOf, partsOf, leadOf, if_pos hlead, segments_padded n h,
    List.filterMap_append, hnames]
  simp

theorem trimIdle_concat (segs : List String) (h : Inner (.name name)) :
    trimIdle (segs ++ [name]) = segs ++ [name] := by
  have hidle : isIdle name = false := h.not_idle
  rw [trimIdle_eq_rdropWhile, List.rdropWhile_concat_neg _ _ _ (by simp [hidle])]

theorem headLength_padded (n : Nat) (h : Named (names ++ [name])) :
    (padded n (names ++ [name])).headLength = 1 := by
  rw [headLength, isAbsolute_padded n h]
  rfl

theorem body_padded (n : Nat) (h : Named (names ++ [name])) :
    (padded n (names ++ [name])).body = List.replicate n "" ++ names ++ [name] := by
  rw [body, headLength_padded n h, segments_padded n h, List.replicate_succ, List.cons_append,
    List.drop_succ_cons, List.drop_zero, ← List.append_assoc,
    trimIdle_concat _ (h name (by simp))]

theorem parent?_padded (n : Nat) {last : String} (h : Named (names ++ [last] ++ [name])) :
    (padded n (names ++ [last] ++ [name])).parent? = some (padded n (names ++ [last])) := by
  have htake : (padded n (names ++ [last] ++ [name])).segments.take 1 = [""] := by
    rw [segments_padded n h, List.replicate_succ]
    rfl
  rw [parent?, body_padded n h, List.dropLast_concat, ← List.append_assoc,
    trimIdle_concat _ (h last (by simp)), if_neg (by simp), withBody, if_neg (by simp),
    headLength_padded n h, htake, padded, List.replicate_succ]
  simp only [List.cons_append, List.nil_append, List.append_assoc]

theorem parent?_padded_singleton (n : Nat) (h : Named ([] ++ [name])) :
    (padded n ([] ++ [name])).parent? = some ⟨"/"⟩ := by
  have hidle : trimIdle (List.replicate n "" ++ []) = [] := by
    rw [trimIdle_eq_rdropWhile, List.append_nil, List.rdropWhile_eq_nil_iff]
    intro s hs
    rw [List.eq_of_mem_replicate hs]
    rfl
  rw [parent?, body_padded n h, List.dropLast_concat, hidle, if_neg (by simp), withBody,
    if_pos (by rw [isAbsolute_padded n h]; rfl)]

theorem directory_padded (n : Nat) {last : String} (h : Named [last, name]) :
    (padded n [last, name]).directory = padded n [last] := by
  have hparent : (padded n ([] ++ [last] ++ [name])).parent? = some (padded n ([] ++ [last])) :=
    parent?_padded n h
  rw [List.nil_append, List.singleton_append] at hparent
  rw [directory, hparent, Option.getD_some]

theorem ancestors_padded (n : Nat) (h : Named [name]) :
    (padded n [name]).ancestors = [padded n [name], ⟨"/"⟩] := by
  have hparent : (padded n ([] ++ [name])).parent? = some ⟨"/"⟩ := parent?_padded_singleton n h
  have hroot : (Path.mk "/").parent? = none := by decide
  rw [List.nil_append] at hparent
  rw [ancestors, segments_padded n h, List.length_append, List.length_replicate,
    List.length_singleton]
  simp only [ancestorsUpTo, hparent, hroot]

/-- Between any two segments there is a slash. -/
theorem length_segments_le (p : Path) : p.segments.length ≤ p.text.utf8ByteSize + 1 := by
  have hslashes : ∀ ps : List (List Char),
      ps.length ≤ (String.ofList (['/'].intercalate ps)).utf8ByteSize + 1 := by
    intro ps
    induction ps with
    | nil => simp
    | cons q ps ih =>
        rcases ps with - | ⟨q', ps⟩
        · simp
        · have hsize : (String.ofList ['/']).utf8ByteSize = 1 := by decide
          simp only [List.intercalate_cons_cons, String.ofList_append, String.utf8ByteSize_append,
            hsize]
          rw [List.length_cons]
          omega
  have hle := hslashes (p.segments.map String.toList)
  rwa [intercalate_segments, String.ofList_toList, List.length_map] at hle

theorem not_short_padded {n : Nat} (hn : Disk.longestPath ≤ n) (h : Named (names ++ [name])) :
    ¬ (padded n (names ++ [name])).Short := by
  have hle := length_segments_le (padded n (names ++ [name]))
  rw [segments_padded n h] at hle
  simp only [List.length_append, List.length_replicate, List.length_singleton] at hle
  unfold Short
  omega

end Path

/-! ### Looking up -/

namespace Disk

variable {disk : Disk} {place : Place} {p q : Path}

/-- Idle segments before the last one change nothing. -/
theorem follow_filter {init : List String} {last : String} (h : Path.isIdle last = false) :
    disk.follow place (init ++ [last]) =
      disk.follow place ((init ++ [last]).filter (!Path.isIdle ·)) := by
  induction init generalizing place with
  | nil => simp [h]
  | cons s init ih =>
      by_cases hs : Path.isIdle s = true
      · -- what follows asks for a directory as well
        obtain ⟨t, more, hmore⟩ : ∃ t more,
            (init ++ [last]).filter (!Path.isIdle ·) = t :: more := by
          apply List.exists_cons_of_ne_nil
          simp [h]
        rw [List.cons_append, List.filter_cons_of_neg (by simp [hs]), follow]
        rcases hnode : disk.node? place with - | bytes | -
        · simp only [hmore, follow, hnode]
        · simp only [hmore, follow, hnode]
        · simp only [hs, if_true]
          exact ih
      · rw [List.cons_append, List.filter_cons_of_pos (by simpa using hs), follow, follow]
        rcases disk.node? place with - | bytes | -
        · rfl
        · rfl
        · simp only [ih]

/-- **One directory written in two ways is found in both or in neither**, as
long as both texts are short enough. -/
theorem lookUp_congr_of_respelled (disk : Disk) (hpq : Path.Respelled p q) :
    disk.lookUp p = disk.lookUp q := by
  obtain ⟨h, ⟨hp, hq⟩, hps, hqs⟩ := hpq
  rcases hp.eq_or_last hq h with rfl | ⟨⟨pinit, plast, hpl, hpi⟩, qinit, qlast, hql, hqi⟩
  · rfl
  have hfollow : ∀ place, disk.follow place p.segments = disk.follow place q.segments := by
    intro place
    rw [hpl, follow_filter hpi, ← hpl, hql, follow_filter hqi, ← hql,
      Path.filter_segments_congr h]
  have hempty : p.text = "" ↔ q.text = "" := by
    rw [← Path.parts_eq_nil_iff, ← Path.parts_eq_nil_iff, h]
  have hending : p.text.toList.contains '\x00' = q.text.toList.contains '\x00' := by
    rw [Bool.eq_iff_iff, List.contains_iff_mem, List.contains_iff_mem,
      Path.mem_text_iff (by decide) (by decide), Path.mem_text_iff (by decide) (by decide),
      Path.filter_segments_congr h]
  have habsolute : p.isAbsolute = q.isAbsolute := by
    rw [Bool.eq_iff_iff, Path.isAbsolute_iff_parts, Path.isAbsolute_iff_parts, h]
  unfold lookUp
  simp only [hempty, hending, habsolute, hfollow, Nat.not_lt.mpr hps, Nat.not_lt.mpr hqs]

/-- Nothing is found at a path that is too long. -/
theorem exists_error_of_not_short (disk : Disk) (h : ¬ p.Short) :
    ∃ reason, disk.lookUp p = .error reason := by
  unfold lookUp
  split
  · exact ⟨_, rfl⟩
  · split
    · exact ⟨_, rfl⟩
    · rw [if_pos (Nat.lt_of_not_le h)]
      exact ⟨_, rfl⟩

end Disk

end LatexIndex
