/-
LatexIndex/Proofs/PathParts.lean

The parts of the paths that other paths are made into.

A path is read through its segments: its parts are the root or a leading `.`,
if the segments begin so, and then one part for each segment that is not idle
(`parts_eq_partsOf`).  Every operation on the text of a path is followed here
on its segments and from there on its parts:

* `parts_join`: going down appends the parts of the name;
* `parts_directory`: the directory of a file drops its last part;
* `parts_normalize`: normalising is `normalParts` on the parts, and what it
  writes is read back unchanged.

So each of them gives the same path for two ways to write one path.
-/
import Mathlib.Data.List.DropRight
import LatexIndex.Path.Normal

namespace LatexIndex

open Text

/-! ### Cutting at a separator -/

theorem Text.splitOn_cons_self (sep : Char) (cs : List Char) :
    (sep :: cs).splitOn sep = [] :: cs.splitOn sep :=
  List.splitOn_append_cons_self [] cs

/-- A character that is no separator goes to the first piece. -/
theorem Text.splitOn_cons_of_ne {sep c : Char} (hc : c ≠ sep) (cs : List Char) :
    ∃ first more, cs.splitOn sep = first :: more ∧
      (c :: cs).splitOn sep = (c :: first) :: more := by
  obtain ⟨first, more, hcs⟩ := List.exists_cons_of_ne_nil (List.splitOn_ne_nil sep cs)
  refine ⟨first, more, hcs, ?_⟩
  rw [List.splitOn_cons_eq_if_modifyHead, if_neg (by simpa using hc), hcs, List.modifyHead_cons]

/-- No piece holds the separator. -/
theorem Text.notMem_of_mem_splitOn {sep : Char} {cs p : List Char}
    (h : p ∈ cs.splitOn sep) : sep ∉ p := by
  induction cs generalizing p with
  | nil =>
      obtain rfl := List.mem_singleton.mp h
      exact List.not_mem_nil
  | cons c cs ih =>
      by_cases hc : c = sep
      · rw [hc, splitOn_cons_self] at h
        rcases List.mem_cons.mp h with rfl | h
        · exact List.not_mem_nil
        · exact ih h
      · obtain ⟨first, more, hcs, hcons⟩ := splitOn_cons_of_ne hc cs
        rw [hcs] at ih
        rw [hcons] at h
        rcases List.mem_cons.mp h with rfl | h
        · rw [List.mem_cons, not_or]
          exact ⟨Ne.symm hc, ih List.mem_cons_self⟩
        · exact ih (List.mem_cons_of_mem first h)

namespace Path

/-! ### Segments -/

theorem segments_ne_nil (p : Path) : p.segments ≠ [] := by
  rw [segments]
  exact fun h => List.splitOn_ne_nil '/' p.text.toList (List.map_eq_nil_iff.mp h)

theorem slash_notMem_of_mem_segments {p : Path} {s : String} (h : s ∈ p.segments) :
    '/' ∉ s.toList := by
  obtain ⟨piece, hpiece, rfl⟩ := List.mem_map.mp h
  rw [String.toList_ofList]
  exact notMem_of_mem_splitOn hpiece

/-- A slash between two texts separates their segments. -/
theorem segments_slash (a b : String) :
    (Path.mk (a ++ "/" ++ b)).segments = (Path.mk a).segments ++ (Path.mk b).segments := by
  simp only [segments, String.toList_append, List.append_assoc, ← List.map_append]
  congr 1
  exact List.splitOn_append_cons_self _ _

/-- Segments without slashes, written with slashes between them, are read
back. -/
theorem segments_intercalate {segs : List String} (hne : segs ≠ [])
    (h : ∀ s ∈ segs, '/' ∉ s.toList) :
    (Path.mk (String.ofList (['/'].intercalate (segs.map String.toList)))).segments = segs := by
  rw [segments, String.toList_ofList, List.splitOn_intercalate]
  · simp [Function.comp_def]
  · intro l hl
    obtain ⟨s, hs, rfl⟩ := List.mem_map.mp hl
    exact h s hs
  · simpa using hne

/-- A path is absolute when its first segment is empty and not the only
one. -/
theorem isAbsolute_iff (p : Path) :
    p.isAbsolute = true ↔ p.segments.head? = some "" ∧ p.segments.tail ≠ [] := by
  rw [isAbsolute, segments]
  rcases p.text.toList with - | ⟨c, cs⟩
  · simp
  · by_cases hc : c = '/'
    · simp [hc, splitOn_cons_self, List.splitOn_ne_nil]
    · obtain ⟨first, more, -, hcons⟩ := splitOn_cons_of_ne hc cs
      simp [hc, hcons]

theorem segments_eq_singleton_iff (p : Path) : p.segments = [""] ↔ p.text = "" := by
  constructor
  · intro h
    have hs : p.text.toList.splitOn '/' = [[]] := by
      have := congrArg (List.map String.toList) h
      simpa [segments, Function.comp_def] using this
    have := congrArg (['/'].intercalate ·) hs
    simpa [List.intercalate_splitOn] using this
  · intro h
    rw [segments, h]
    rfl

/-! ### Parts from segments -/

/-- What a list of segments begins with: the root, a `.`, or nothing. -/
def leadOf (segs : List String) : List Part :=
  if segs.head? = some "" ∧ segs.tail ≠ [] then [.root]
  else if segs.head? = some "." then [.here]
  else []

/-- The parts a list of segments stands for. -/
def partsOf (segs : List String) : List Part :=
  leadOf segs ++ segs.filterMap partOf?

@[simp] theorem partOf?_empty : partOf? "" = none := rfl

@[simp] theorem partOf?_dot : partOf? "." = none := rfl

theorem partOf?_eq_none_iff {s : String} : partOf? s = none ↔ isIdle s = true := by
  unfold partOf?
  split
  · simpa using ‹isIdle s = true›
  · split <;> simpa using ‹¬ isIdle s = true›

theorem parts_eq_partsOf (p : Path) : p.parts = partsOf p.segments := by
  have habs := isAbsolute_iff p
  rcases hs : p.segments with - | ⟨first, more⟩
  · exact absurd hs (segments_ne_nil p)
  rw [hs] at habs
  simp only [parts, hs, partsOf, leadOf]
  by_cases ha : p.isAbsolute = true
  · have hroot := habs.mp ha
    obtain rfl : first = "" := by simpa using hroot.1
    rw [if_pos ha, if_pos hroot]
    rfl
  · rw [if_neg ha, if_neg (mt habs.mpr ha)]
    by_cases hf : first = "."
    · simp [hf, List.filterMap_cons]
    · simp [hf]

/-- Only the empty path has no parts. -/
theorem parts_eq_nil_iff (p : Path) : p.parts = [] ↔ p.text = "" := by
  rw [parts_eq_partsOf, ← segments_eq_singleton_iff]
  rcases hs : p.segments with - | ⟨first, more⟩
  · exact absurd hs (segments_ne_nil p)
  constructor
  · intro h
    obtain ⟨hlead, hmore⟩ := List.append_eq_nil_iff.mp h
    have hidle : isIdle first = true :=
      partOf?_eq_none_iff.mp (List.filterMap_eq_nil_iff.mp hmore first List.mem_cons_self)
    -- of the two idle segments only the empty one begins with no part
    have hdot : first ≠ "." := by
      rintro rfl
      simp [leadOf] at hlead
    obtain rfl : first = "" := by simpa [isIdle, hdot] using hidle
    rcases more with - | ⟨second, more⟩
    · rfl
    · simp [leadOf] at hlead
  · intro h
    rw [h]
    rfl

/-! ### Going down -/

theorem leadOf_append {as bs cs : List String} (ha : as ≠ []) (hb : bs ≠ []) (hc : cs ≠ []) :
    leadOf (as ++ bs) = leadOf (as ++ cs) := by
  obtain ⟨a, as, rfl⟩ := List.exists_cons_of_ne_nil ha
  obtain ⟨b, bs, rfl⟩ := List.exists_cons_of_ne_nil hb
  obtain ⟨c, cs, rfl⟩ := List.exists_cons_of_ne_nil hc
  simp [leadOf]

/-- A name that is not absolute adds its parts to those of the directory. -/
theorem parts_join {p : Path} (hp : p.text ≠ "") {name : String}
    (hname : (name.toList.head? == some '/') = false) :
    (p.join name).parts = p.parts ++ (Path.mk name).segments.filterMap partOf? := by
  simp only [join, hname, Bool.false_eq_true, if_false, parts_eq_partsOf, partsOf]
  split
  · next hend =>
      -- the slash is there already: `p` ends in an empty segment
      simp only [hp, decide_false, Bool.false_or, beq_iff_eq] at hend
      obtain ⟨cs, hcs⟩ := List.getLast?_eq_some_iff.mp hend
      have htext : p.text = String.ofList cs ++ "/" := by
        rw [← String.toList_inj, hcs]
        simp
      have hseg : p.segments = (Path.mk (String.ofList cs)).segments ++ [""] := by
        have := segments_slash (String.ofList cs) ""
        rw [String.append_empty, ← htext] at this
        exact this
      rw [htext, segments_slash, hseg,
        leadOf_append (segments_ne_nil _) (segments_ne_nil ⟨name⟩) (List.cons_ne_nil "" [])]
      simp [List.filterMap_append]
  · -- `p` is not the empty path, so it begins as it begins alone
    have hsingle : p.segments ≠ [""] := mt (segments_eq_singleton_iff p).mp hp
    have hlead : leadOf (p.segments ++ (Path.mk name).segments) = leadOf p.segments := by
      rcases hs : p.segments with - | ⟨first, - | ⟨second, more⟩⟩
      · exact absurd hs (segments_ne_nil p)
      · have hfirst : first ≠ "" := fun h => hsingle (by rw [hs, h])
        simp [leadOf, hfirst]
      · simp [leadOf]
    rw [segments_slash, hlead, List.filterMap_append, List.append_assoc]

/-- Going down from one directory written in two ways leads to one path. -/
theorem parts_join_congr {p q : Path} (h : p.parts = q.parts) (name : String) :
    (p.join name).parts = (q.join name).parts := by
  by_cases hname : (name.toList.head? == some '/') = true
  · simp [join, hname]
  · rw [Bool.not_eq_true] at hname
    by_cases hp : p.text = ""
    · have hq : q.text = "" := by rw [← parts_eq_nil_iff, ← h, parts_eq_nil_iff, hp]
      simp [join, hp, hq]
    · have hq : q.text ≠ "" := by rwa [Ne, ← parts_eq_nil_iff, ← h, parts_eq_nil_iff]
      rw [parts_join hp hname, parts_join hq hname, h]

/-! ### Going up -/

/-- The parts of the directory that a file with these parts is in. -/
def directoryParts (parts : List Part) : List Part :=
  if parts = [] ∨ parts = [.root] then [.root] else parts.dropLast

theorem trimIdle_eq_rdropWhile (segs : List String) :
    trimIdle segs = segs.rdropWhile isIdle := rfl

/-- Idle segments at the end stand for nothing. -/
theorem filterMap_trimIdle (segs : List String) :
    (trimIdle segs).filterMap partOf? = segs.filterMap partOf? := by
  rw [trimIdle_eq_rdropWhile]
  induction segs using List.reverseRecOn with
  | nil => rfl
  | append_singleton segs s ih =>
      by_cases hs : isIdle s = true
      · rw [List.rdropWhile_concat_pos _ _ _ hs, List.filterMap_append]
        simpa [partOf?_eq_none_iff.mpr hs] using ih
      · rw [List.rdropWhile_concat_neg _ _ _ hs]

theorem trimIdle_begins (segs : List String) : trimIdle segs <+: segs :=
  List.rdropWhile_prefix isIdle segs

theorem isIdle_last_of_trimIdle {segs init : List String} {last : String}
    (h : trimIdle segs = init ++ [last]) : isIdle last = false := by
  rw [trimIdle_eq_rdropWhile] at h
  have hlast := List.rdropWhile_last_not isIdle segs (by rw [h]; simp)
  simpa [h] using hlast

/-- The beginning of a path is as long as what it stands for. -/
theorem headLength_eq (p : Path) : p.headLength = (leadOf p.segments).length := by
  simp only [headLength, leadOf, Bool.or_eq_true, isAbsolute_iff, beq_iff_eq]
  grind

theorem take_headLength (p : Path) :
    p.segments.take p.headLength = (leadOf p.segments).map Part.text := by
  rw [headLength_eq, leadOf]
  rcases hs : p.segments with - | ⟨first, more⟩
  · exact absurd hs (segments_ne_nil p)
  · split
    · next h =>
        obtain rfl : first = "" := by simpa using h.1
        rfl
    · split
      · next h =>
          obtain rfl : first = "." := by simpa using h
          rfl
      · rfl

/-- The body has every part but the root or the leading `.`. -/
theorem parts_eq_body (p : Path) :
    p.parts = leadOf p.segments ++ p.body.filterMap partOf? := by
  have hhead : (p.segments.take p.headLength).filterMap partOf? = [] := by
    rw [take_headLength, leadOf]
    split
    · rfl
    · split <;> rfl
  have hsplit := congrArg (List.filterMap partOf?) (List.take_append_drop p.headLength p.segments)
  rw [List.filterMap_append, hhead, List.nil_append] at hsplit
  rw [parts_eq_partsOf, partsOf, body, filterMap_trimIdle, hsplit]

/-- A body without a beginning does not begin idle. -/
theorem head_body {p : Path} (h0 : leadOf p.segments = []) {s : String} {b : List String}
    (hb : b <+: p.body) (hs : b.head? = some s) : isIdle s = false := by
  have hlen : p.headLength = 0 := by rw [headLength_eq, h0, List.length_nil]
  have hbody : p.body = trimIdle p.segments := by rw [body, hlen, List.drop_zero]
  rcases hseg : p.segments with - | ⟨first, more⟩
  · exact absurd hseg (segments_ne_nil p)
  have hpre : b <+: first :: more := by
    rw [hbody, hseg] at hb
    exact hb.trans (trimIdle_begins _)
  obtain rfl : s = first := by
    rcases b with - | ⟨c, b⟩
    · cases hs
    · rw [List.cons_prefix_cons] at hpre
      rw [← hpre.1]
      simpa using hs.symm
  by_contra hidle
  rw [Bool.not_eq_false, isIdle, Bool.or_eq_true, beq_iff_eq, beq_iff_eq] at hidle
  rw [hseg] at h0
  rcases hidle with rfl | rfl
  · -- an empty first segment is the only one, and then the body is empty
    have hmore : more = [] := by
      by_contra hmore
      simp [leadOf, hmore] at h0
    rw [hbody, hseg, hmore] at hb
    rw [List.eq_nil_of_prefix_nil hb] at hs
    cases hs
  · simp [leadOf] at h0

/-- What another body makes of a path. -/
theorem parts_withBody {p : Path} {b : List String} (hslash : ∀ s ∈ b, '/' ∉ s.toList)
    (hhead : leadOf p.segments = [] → ∀ s, b.head? = some s → isIdle s = false) :
    (p.withBody b).parts = leadOf p.segments ++ b.filterMap partOf? := by
  rw [withBody, take_headLength]
  have habs := isAbsolute_iff p
  by_cases hb : b = []
  · subst hb
    by_cases hroot : p.isAbsolute = true
    · rw [if_pos (by simp [hroot]), leadOf, if_pos (habs.mp hroot)]
      rfl
    · rw [if_neg (by simp [hroot]), leadOf, if_neg (mt habs.mpr hroot)]
      split <;> rfl
  · rw [if_neg (by simp [hb]), parts_eq_partsOf, segments_intercalate (by simp [hb])]
    · have hlead : leadOf ((leadOf p.segments).map Part.text ++ b) = leadOf p.segments := by
        unfold leadOf at hhead ⊢
        split
        · simp [Part.text, hb]
        · next h =>
            rw [if_neg h] at hhead
            split
            · simp [Part.text]
            · next h' =>
                -- no beginning: the body must not look like one
                rcases b with - | ⟨s, b⟩
                · exact absurd rfl hb
                · have := hhead (if_neg h') s rfl
                  simp only [isIdle, Bool.or_eq_false_iff, beq_eq_false_iff_ne] at this
                  simp [this.1, this.2]
      have hnone : ((leadOf p.segments).map Part.text).filterMap partOf? = [] := by
        unfold leadOf
        split
        · rfl
        · split <;> rfl
      rw [partsOf, hlead, List.filterMap_append, hnone, List.nil_append]
    · intro s hs
      rcases List.mem_append.mp hs with hs | hs
      · rw [← take_headLength] at hs
        exact slash_notMem_of_mem_segments (List.mem_of_mem_take hs)
      · exact hslash s hs

theorem partOf?_ne_root (s : String) : partOf? s ≠ some .root := by
  unfold partOf?
  split
  · simp
  · split <;> simp

/-- The directory of a file has all parts of the file but the last. -/
theorem parts_directory (p : Path) : p.directory.parts = directoryParts p.parts := by
  rw [parts_eq_body p, directory, parent?]
  rcases List.eq_nil_or_concat' p.body with hb | ⟨init, last, hb⟩
  · -- without a body the path is the root, `.` or empty
    rw [hb, if_pos List.isEmpty_nil, headLength_eq]
    have habs := isAbsolute_iff p
    by_cases hroot : p.isAbsolute = true
    · rw [if_pos (by simp [hroot]), leadOf, if_pos (habs.mp hroot)]
      rfl
    · rw [leadOf, if_neg (mt habs.mpr hroot)]
      split <;> simp [hroot, directoryParts] <;> rfl
  · -- the last segment of a body is not idle, so it is the part that goes
    have hinit : init <+: p.body := hb ▸ List.prefix_append init [last]
    have hlast : isIdle last = false := isIdle_last_of_trimIdle hb
    obtain ⟨x, hx⟩ : ∃ x, partOf? last = some x :=
      Option.ne_none_iff_exists'.mp (mt partOf?_eq_none_iff.mp (by simp [hlast]))
    have hslash : ∀ s ∈ trimIdle init, '/' ∉ s.toList := fun s hs =>
      slash_notMem_of_mem_segments (p := p) (List.mem_of_mem_drop
        ((trimIdle_begins _).subset (hinit.subset ((trimIdle_begins init).subset hs))))
    have hroot : x ≠ .root := fun h => partOf?_ne_root last (h ▸ hx)
    rw [if_neg (by simp [hb]), Option.getD_some, hb, List.dropLast_concat,
      parts_withBody hslash fun h0 s => head_body h0 ((trimIdle_begins init).trans hinit),
      filterMap_trimIdle, List.filterMap_append, List.filterMap_cons_some hx,
      List.filterMap_nil, ← List.append_assoc, directoryParts, if_neg, List.dropLast_concat]
    simp only [List.append_eq_nil_iff, List.cons_ne_nil, and_false, false_or]
    intro h
    exact hroot (by simpa using congrArg List.getLast? h)

/-- One file written in two ways is in one directory. -/
theorem parts_directory_congr {p q : Path} (h : p.parts = q.parts) :
    p.directory.parts = q.directory.parts := by
  rw [parts_directory, parts_directory, h]

/-! ### Normal paths -/

/-- A part that may stand anywhere in a path: `..` or a name. -/
def Inner (x : Part) : Prop :=
  partOf? x.text = some x ∧ '/' ∉ x.text.toList

theorem inner_up : Inner .up := by
  constructor
  · rfl
  · decide

theorem inner_of_partOf? {s : String} {x : Part} (hs : '/' ∉ s.toList)
    (h : partOf? s = some x) : Inner x := by
  have htext : x.text = s := by
    unfold partOf? at h
    split at h
    · cases h
    · split at h
      · next hup =>
          obtain rfl := Option.some.inj h
          exact hup.symm
      · obtain rfl := Option.some.inj h
        rfl
  rw [Inner, htext]
  exact ⟨h, hs⟩

theorem Inner.not_idle {x : Part} (h : Inner x) : isIdle x.text = false := by
  rw [← Bool.not_eq_true, ← partOf?_eq_none_iff, h.1]
  simp

/-- Inner parts are `..` and names, nothing else. -/
theorem Inner.eq_up_or_name {x : Part} (h : Inner x) : x = .up ∨ ∃ n, x = .name n := by
  cases x with
  | root => exact absurd h.1 (by simp [Part.text])
  | here => exact absurd h.1 (by simp [Part.text])
  | up => exact .inl rfl
  | name n => exact .inr ⟨n, rfl⟩

theorem filterMap_text {rest : List Part} (h : ∀ x ∈ rest, Inner x) :
    (rest.map Part.text).filterMap partOf? = rest := by
  induction rest with
  | nil => rfl
  | cons x rest ih =>
      rw [List.map_cons, List.filterMap_cons_some (h x List.mem_cons_self).1,
        ih fun y hy => h y (List.mem_cons_of_mem x hy)]

theorem segments_ofParts_root {x : Part} {rest : List Part} (h : ∀ y ∈ x :: rest, Inner y) :
    (ofParts (.root :: x :: rest)).segments = "" :: (x :: rest).map Part.text := by
  have hwritten : ofParts (.root :: x :: rest)
      = ⟨String.ofList
          (['/'].intercalate (("" :: (x :: rest).map Part.text).map String.toList))⟩ := by
    simp [ofParts, Function.comp_def]
  rw [hwritten, segments_intercalate (List.cons_ne_nil _ _)]
  intro s hs
  rcases List.mem_cons.mp hs with rfl | hs
  · decide
  · obtain ⟨y, hy, rfl⟩ := List.mem_map.mp hs
    exact (h y hy).2

theorem segments_ofParts {x : Part} {rest : List Part} (h : ∀ y ∈ x :: rest, Inner y) :
    (ofParts (x :: rest)).segments = (x :: rest).map Part.text := by
  have hwritten : ofParts (x :: rest)
      = ⟨String.ofList (['/'].intercalate (((x :: rest).map Part.text).map String.toList))⟩ := by
    rcases (h x List.mem_cons_self).eq_up_or_name with rfl | ⟨n, rfl⟩ <;>
      simp [ofParts, Function.comp_def]
  rw [hwritten, segments_intercalate (by simp)]
  intro s hs
  obtain ⟨y, hy, rfl⟩ := List.mem_map.mp hs
  exact (h y hy).2

/-- Inner parts after the root are read back as they were written. -/
theorem parts_ofParts_root {rest : List Part} (h : ∀ x ∈ rest, Inner x) :
    (ofParts (.root :: rest)).parts = .root :: rest := by
  rcases rest with - | ⟨x, rest⟩
  · rfl
  · rw [parts_eq_partsOf, segments_ofParts_root h, partsOf, List.filterMap_cons_none rfl,
      filterMap_text h]
    simp [leadOf]

/-- So are inner parts alone. -/
theorem parts_ofParts {rest : List Part} (h : ∀ x ∈ rest, Inner x) :
    (ofParts rest).parts = rest := by
  rcases rest with - | ⟨x, rest⟩
  · rfl
  · have hx := (h x List.mem_cons_self).not_idle
    simp only [isIdle, Bool.or_eq_false_iff, beq_eq_false_iff_ne] at hx
    rw [parts_eq_partsOf, segments_ofParts h, partsOf, filterMap_text h]
    simp [leadOf, hx.1, hx.2]

/-- Normal parts: at most one `..`, directly after the root or at the very
beginning, and then names. -/
def IsNormal (parts : List Part) : Prop :=
  ∃ start ∈ ([[], [.up], [.root], [.root, .up]] : List (List Part)), ∃ names : List String,
    parts = start ++ names.map .name ∧ ∀ n ∈ names, Inner (.name n)

theorem isNormal_nil : IsNormal [] :=
  ⟨[], by simp, [], rfl, by simp⟩

theorem isNormal_root : IsNormal [.root] :=
  ⟨[.root], by simp, [], rfl, by simp⟩

/-- Reading one more inner part keeps the parts normal. -/
theorem isNormal_normalStep {done : List Part} (h : IsNormal done.reverse) {x : Part}
    (hx : Inner x) : IsNormal (normalStep done x).reverse := by
  obtain ⟨start, hstart, names, hdone, hnames⟩ := h
  rcases hx.eq_up_or_name with rfl | ⟨n, rfl⟩
  · -- `..` takes away the last name, or changes the start when there is none
    obtain rfl : done = (names.map Part.name).reverse ++ start.reverse := by
      rw [← List.reverse_append, ← hdone, List.reverse_reverse]
    rcases List.eq_nil_or_concat' names with rfl | ⟨init, n, rfl⟩
    · simp only [List.mem_cons, List.not_mem_nil, or_false] at hstart
      rcases hstart with rfl | rfl | rfl | rfl
      · exact ⟨[.up], by simp, [], rfl, by simp⟩
      · exact isNormal_nil
      · exact ⟨[.root, .up], by simp, [], rfl, by simp⟩
      · exact isNormal_root
    · refine ⟨start, hstart, init, ?_, fun m hm => hnames m (List.mem_append_left _ hm)⟩
      simp [normalStep]
  · -- a name goes to the end
    refine ⟨start, hstart, names ++ [n], ?_, ?_⟩
    · simp [normalStep, hdone]
    · intro m hm
      rcases List.mem_append.mp hm with hm | hm
      · exact hnames m hm
      · obtain rfl := List.mem_singleton.mp hm
        exact hx

theorem isNormal_foldl {done rest : List Part} (h : IsNormal done.reverse)
    (hrest : ∀ x ∈ rest, Inner x) : IsNormal (rest.foldl normalStep done).reverse := by
  induction rest generalizing done with
  | nil => exact h
  | cons x rest ih =>
      exact ih (isNormal_normalStep h (hrest x List.mem_cons_self))
        fun y hy => hrest y (List.mem_cons_of_mem x hy)

/-- The normal parts of a path are normal. -/
theorem isNormal_normalParts (p : Path) : IsNormal (normalParts p.parts) := by
  rw [parts_eq_partsOf, partsOf, normalParts, List.foldl_append]
  apply isNormal_foldl
  · unfold leadOf
    split
    · exact isNormal_root
    · split <;> exact isNormal_nil
  · intro x hx
    obtain ⟨s, hs, hsx⟩ := List.mem_filterMap.mp hx
    exact inner_of_partOf? (slash_notMem_of_mem_segments hs) hsx

/-- Normal parts are read back as they were written. -/
theorem IsNormal.parts_ofParts {parts : List Part} (h : IsNormal parts) :
    (Path.ofParts parts).parts = parts := by
  obtain ⟨start, hstart, names, rfl, hnames⟩ := h
  have hinner : ∀ x ∈ names.map Part.name, Inner x := by
    intro x hx
    obtain ⟨n, hn, rfl⟩ := List.mem_map.mp hx
    exact hnames n hn
  have hup : ∀ x ∈ Part.up :: names.map Part.name, Inner x := by
    intro x hx
    rcases List.mem_cons.mp hx with rfl | hx
    · exact inner_up
    · exact hinner x hx
  simp only [List.mem_cons, List.not_mem_nil, or_false] at hstart
  rcases hstart with rfl | rfl | rfl | rfl
  · exact Path.parts_ofParts hinner
  · exact Path.parts_ofParts hup
  · exact parts_ofParts_root hinner
  · exact parts_ofParts_root hup

/-- **Normalising a path normalises its parts**, and nothing is lost when
they are written down. -/
theorem parts_normalize (p : Path) : p.normalize.parts = normalParts p.parts :=
  (isNormal_normalParts p).parts_ofParts

theorem normalize_congr {p q : Path} (h : p.parts = q.parts) : p.normalize = q.normalize := by
  rw [normalize, normalize, h]

end Path

end LatexIndex
