/-
LatexIndex/Proofs/LineNumbers.lean

Line numbers of the index and line numbers of an editor.

The index numbers source lines, which end at line feeds only; an editor numbers
buffer lines, which end at every break.  A break that is no line feed and does
not stand before one is *lone*: it ends a buffer line but no source line.  So a
key that the index places on line `l` stands on buffer line `l + k`, where `k`
is the number of lone breaks before it, and on no other; and a key with a lone
break inside it stands on no buffer line at all (`key_shown_iff`).

The two numberings agree where there are no lone breaks.  They are not one
numbering: a form feed is enough to tell them apart (`label_not_on_its_line`).
-/
import Mathlib.Data.List.Infix
import LatexIndex.Proofs.WrittenKeys
import LatexIndex.Session

namespace LatexIndex

open Text

namespace Text

variable {text before word after rest line : List Char} {c : Char} {n : Nat}

/-! ### Places of source lines -/

/-- Where the last line is ended, there are as many lines as line feeds. -/
theorem length_sourceLines_feed (text : List Char) :
    (sourceLines (text ++ ['\n'])).length = lineFeeds text + 1 := by
  induction text using sourceLines.induct with
  | case1 => rfl
  | case2 rest ih | case3 rest ih =>
      simp only [List.cons_append, sourceLines, List.length_cons, ih]
      simp [lineFeeds]
  | case4 c rest hfeed hpair _ ih | case5 c rest hfeed hpair _ _ _ ih =>
      have hcount : lineFeeds (c :: rest) = lineFeeds rest := List.count_cons_of_ne hfeed
      by_cases hreturn : c = '\r' ∧ rest = []
      · -- the line feed is the second half of a line end
        obtain ⟨rfl, rfl⟩ := hreturn
        rfl
      · have hpair' : ∀ rest', c = '\r' → rest ++ ['\n'] = '\n' :: rest' → False := by
          intro rest' hc heq
          rcases rest with - | ⟨d, rest⟩
          · exact hreturn ⟨hc, rfl⟩
          · exact hpair rest hc (by rw [(List.cons.inj heq).1])
        have hne : sourceLines (rest ++ ['\n']) ≠ [] := sourceLines_ne_nil (by simp)
        obtain ⟨line, lines, hlines⟩ := List.exists_cons_of_ne_nil hne
        rw [hlines] at ih
        rw [List.cons_append, sourceLines_cons hfeed hpair' hlines, hcount, ← ih]
        rfl

/-- Source line `n` stands after `n` line feeds. -/
theorem exists_before_of_sourceLines (h : (sourceLines text)[n]? = some line) :
    ∃ before after, text = before ++ line ++ after ∧ lineFeeds before = n := by
  obtain ⟨hn, rfl⟩ := List.getElem?_eq_some_iff.mp h
  have hsplit : sourceLines text = (sourceLines text).take n ++
      (sourceLines text)[n] :: (sourceLines text).drop (n + 1) := by
    rw [← List.drop_eq_getElem_cons hn, List.take_append_drop]
  obtain ⟨above, ending, after, htext, habove, -, -, hlines, -⟩ := exists_above hsplit
  refine ⟨above, ending ++ after, by rw [← List.append_assoc]; exact htext, ?_⟩
  have hlength : (sourceLines above).length = n := by
    rw [hlines, List.length_take_of_le hn.le]
  rcases habove with rfl | habove
  · exact hlength
  · obtain ⟨init, rfl⟩ := List.getLast?_eq_some_iff.mp habove
    rw [length_sourceLines_feed] at hlength
    rw [lineFeeds, List.count_append]
    exact hlength

/-! ### Buffer lines and breaks -/

/-- Number of breaks that are no line feeds and stand before none. -/
def loneBreaks : List Char → Nat
  | [] => 0
  | '\r' :: '\n' :: rest => loneBreaks rest
  | c :: rest => (if isBreak c && c != '\n' then 1 else 0) + loneBreaks rest

theorem isBlank_of_isBreak (h : isBreak c = true) : isBlank c = true := by
  simp only [isBreak, isBlank, Bool.or_eq_true, Bool.and_eq_true, decide_eq_true_eq,
    beq_iff_eq] at h ⊢
  omega

theorem bufferLines_break (hpair : ∀ rest', c = '\r' → rest = '\n' :: rest' → False)
    (hbreak : isBreak c = true) : bufferLines (c :: rest) = [c] :: bufferLines rest := by
  rw [bufferLines.eq_3 c rest hpair, if_pos hbreak]

theorem bufferLines_cons (hpair : ∀ rest', c = '\r' → rest = '\n' :: rest' → False)
    (hbreak : ¬ isBreak c = true) (h : bufferLines rest = line :: lines) :
    bufferLines (c :: rest) = (c :: line) :: lines := by
  rw [bufferLines.eq_3 c rest hpair, if_neg hbreak, h]

theorem bufferLines_ne_nil (text : List Char) : bufferLines text ≠ [] := by
  fun_cases bufferLines text <;> simp_all

/-- The lines of a buffer with their breaks are its text. -/
theorem flatten_bufferLines (text : List Char) : (bufferLines text).flatten = text := by
  induction text using bufferLines.induct with
  | case1 => rfl
  | case2 rest ih => simp [bufferLines, ih]
  | case3 c rest hpair hbreak ih => simp [bufferLines_break hpair hbreak, ih]
  | case4 c rest hpair hbreak hnil => exact absurd hnil (bufferLines_ne_nil rest)
  | case5 c rest hpair hbreak line more hlines ih =>
      rw [hlines] at ih
      rw [bufferLines_cons hpair hbreak hlines, ← ih]
      rfl

/-- A buffer has one line more than breaks. -/
theorem length_bufferLines (text : List Char) :
    (bufferLines text).length = lineFeeds text + loneBreaks text + 1 := by
  induction text using bufferLines.induct with
  | case1 => rfl
  | case2 rest ih =>
      simp only [lineFeeds] at ih
      simp [bufferLines, loneBreaks, lineFeeds, ih]
      omega
  | case3 c rest hpair hbreak ih =>
      rw [bufferLines_break hpair hbreak, loneBreaks.eq_3 c rest hpair, List.length_cons, ih,
        lineFeeds, lineFeeds, List.count_cons]
      by_cases hc : c = '\n'
      · simp [hc]
        omega
      · simp [hc, hbreak]
        omega
  | case4 c rest hpair hbreak hnil => exact absurd hnil (bufferLines_ne_nil rest)
  | case5 c rest hpair hbreak line more hlines ih =>
      have hc : c ≠ '\n' := by
        rintro rfl
        exact hbreak rfl
      rw [hlines] at ih
      rw [bufferLines_cons hpair hbreak hlines, loneBreaks.eq_3 c rest hpair, List.length_cons,
        ← List.length_cons, ih, lineFeeds, lineFeeds, List.count_cons]
      simp [hc, hbreak]

/-- Texts that are put together share the line at the seam, unless the seam falls
between a carriage return and its line feed. -/
theorem bufferLines_append (hseam : rest.head? ≠ some '\n')
    (h : bufferLines rest = line :: lines) (before : List Char) :
    ∃ above left, bufferLines before = above ++ [left] ∧
      bufferLines (before ++ rest) = above ++ (left ++ line) :: lines := by
  -- the seam is where the last character could form a pair with what follows
  have hapart {c : Char} {before : List Char}
      (hpair : ∀ rest', c = '\r' → before = '\n' :: rest' → False) :
      ∀ rest', c = '\r' → before ++ rest = '\n' :: rest' → False := by
    intro rest' hc heq
    cases before with
    | nil => exact hseam (by rw [show rest = '\n' :: rest' from heq]; rfl)
    | cons d before => exact hpair before hc (by rw [(List.cons.inj heq).1])
  induction before using bufferLines.induct with
  | case1 => exact ⟨[], [], rfl, h⟩
  | case2 before ih =>
      obtain ⟨above, left, hbefore, hall⟩ := ih
      exact ⟨['\r', '\n'] :: above, left, by simp [bufferLines, hbefore],
        by simp [bufferLines, hall]⟩
  | case3 c before hpair hbreak ih =>
      obtain ⟨above, left, hbefore, hall⟩ := ih
      refine ⟨[c] :: above, left, ?_, ?_⟩
      · rw [bufferLines_break hpair hbreak, hbefore, List.cons_append]
      · rw [List.cons_append, bufferLines_break (hapart hpair) hbreak, hall, List.cons_append]
  | case4 c before hpair hbreak hnil => exact absurd hnil (bufferLines_ne_nil before)
  | case5 c before hpair hbreak first more hlines ih =>
      obtain ⟨above, left, hbefore, hall⟩ := ih
      cases above with
      | nil =>
          exact ⟨[], c :: left, bufferLines_cons hpair hbreak hbefore,
            bufferLines_cons (hapart hpair) hbreak hall⟩
      | cons top above =>
          exact ⟨(c :: top) :: above, left, bufferLines_cons hpair hbreak hbefore,
            bufferLines_cons (hapart hpair) hbreak hall⟩

/-- A text without breaks makes no lines. -/
theorem bufferLines_breakless (h : ∀ c ∈ word, isBreak c = false)
    (hrest : bufferLines rest = line :: lines) :
    bufferLines (word ++ rest) = (word ++ line) :: lines := by
  induction word with
  | nil => exact hrest
  | cons c word ih =>
      have hc : ¬ isBreak c = true := by simp [h c List.mem_cons_self]
      refine bufferLines_cons ?_ hc (ih fun d hd => h d (List.mem_cons_of_mem c hd))
      rintro - rfl
      exact absurd rfl hc

/-- A break inside a buffer line is the end of it, or the carriage return before
the line feed that is. -/
theorem break_ends_line (h : line ∈ bufferLines text) {left right : List Char}
    (hline : line = left ++ c :: right) (hc : isBreak c = true) : right = [] ∨ right = ['\n'] := by
  induction text using bufferLines.induct generalizing line left with
  | case1 => simp_all [bufferLines]
  | case2 rest ih =>
      rcases List.mem_cons.mp h with rfl | h
      · rcases left with - | ⟨d, - | ⟨e, left⟩⟩ <;> simp_all
      · exact ih h hline
  | case3 d rest hpair hbreak ih =>
      rw [bufferLines_break hpair hbreak] at h
      rcases List.mem_cons.mp h with rfl | h
      · cases left <;> simp_all
      · exact ih h hline
  | case4 d rest hpair hbreak hnil => exact absurd hnil (bufferLines_ne_nil rest)
  | case5 d rest hpair hbreak first more hlines ih =>
      rw [bufferLines_cons hpair hbreak hlines] at h
      rw [hlines] at ih
      rcases List.mem_cons.mp h with rfl | h
      · cases left with
        | nil =>
            obtain ⟨rfl, -⟩ := List.cons.inj hline
            exact absurd hc hbreak
        | cons e left => exact ih List.mem_cons_self (List.cons.inj hline).2
      · exact ih (List.mem_cons_of_mem first h) hline

/-- Lone breaks are counted part by part. -/
theorem loneBreaks_append (hseam : rest.head? ≠ some '\n') (before : List Char) :
    loneBreaks (before ++ rest) = loneBreaks before + loneBreaks rest := by
  obtain ⟨line, lines, hrest⟩ := List.exists_cons_of_ne_nil (bufferLines_ne_nil rest)
  obtain ⟨above, left, hbefore, hall⟩ := bufferLines_append hseam hrest before
  have hfeeds : lineFeeds (before ++ rest) = lineFeeds before + lineFeeds rest :=
    List.count_append
  have hb := length_bufferLines before
  have hr := length_bufferLines rest
  have ha := length_bufferLines (before ++ rest)
  rw [hbefore, List.length_append, List.length_singleton] at hb
  rw [hrest, List.length_cons] at hr
  rw [hall, List.length_append, List.length_cons] at ha
  omega

/-! ### Words on buffer lines -/

/-- Line `n` of a buffer shows the word that stands after `before`. -/
def ShownOn (text before word : List Char) (n : Nat) : Prop :=
  ∃ left right, (bufferLines text)[n]? = some (left ++ word ++ right) ∧
    before = ((bufferLines text).take n).flatten ++ left

/-- A word has no break for its last character, so a break in it is followed by
another of its characters. -/
theorem Solid.ne_nil_after {left right : List Char} (h : Solid (left ++ c :: right))
    (hc : isBreak c = true) : right ≠ [] := by
  rintro rfl
  have hlast := h.last
  rw [List.getLast_append_of_ne_nil _ (List.cons_ne_nil c []), List.getLast_singleton,
    isBlank_of_isBreak hc] at hlast
  cases hlast

theorem head?_ne_feed (h : '\n' ∉ word) (hne : word ≠ []) (after : List Char) :
    (word ++ after).head? ≠ some '\n' := by
  obtain ⟨c, word, rfl⟩ := List.exists_cons_of_ne_nil hne
  intro hc
  obtain rfl : c = '\n' := Option.some.inj hc
  exact h List.mem_cons_self

theorem feed_notMem_of_breakless (h : ∀ c ∈ word, isBreak c = false) : '\n' ∉ word := by
  intro hmem
  cases h '\n' hmem

theorem shownOn_of_breakless (hword : Solid word) (h : ∀ c ∈ word, isBreak c = false)
    (before after : List Char) :
    ShownOn (before ++ word ++ after) before word (lineFeeds before + loneBreaks before) := by
  obtain ⟨right, lines, hafter⟩ := List.exists_cons_of_ne_nil (bufferLines_ne_nil after)
  have hseam := head?_ne_feed (feed_notMem_of_breakless h) hword.ne_nil after
  obtain ⟨above, left, hbefore, hall⟩ :=
    bufferLines_append hseam (bufferLines_breakless h hafter) before
  have hn : lineFeeds before + loneBreaks before = above.length := by
    have hlength := length_bufferLines before
    rw [hbefore, List.length_append, List.length_singleton] at hlength
    omega
  refine ⟨left, right, ?_, ?_⟩
  · rw [hn, List.append_assoc, hall]
    simp
  · have hflat := flatten_bufferLines before
    rw [hbefore] at hflat
    rw [hn, List.append_assoc, hall, List.take_left, ← hflat]
    simp

theorem breakless_of_shownOn (hword : Solid word) (h : ShownOn text before word n) :
    ∀ c ∈ word, isBreak c = false := by
  obtain ⟨left, right, hline, -⟩ := h
  intro c hc
  by_contra hbreak
  rw [Bool.not_eq_false] at hbreak
  obtain ⟨front, back, rfl⟩ := List.append_of_mem hc
  have hback := hword.ne_nil_after hbreak
  have hsplit : left ++ (front ++ c :: back) ++ right
      = (left ++ front) ++ c :: (back ++ right) := by simp
  have hends := break_ends_line (List.mem_of_getElem? hline) hsplit hbreak
  -- what follows the break in the word can only be the line feed of its pair
  obtain ⟨d, back, rfl⟩ := List.exists_cons_of_ne_nil hback
  obtain ⟨rfl, rfl⟩ : d = '\n' ∧ back = [] := by simp_all
  have hword' : Solid ((front ++ [c]) ++ '\n' :: []) := by simpa using hword
  exact hword'.ne_nil_after rfl rfl

/-- A word is shown on one line only. -/
theorem shownOn_unique {m : Nat} (hword : word ≠ []) (hn : ShownOn text before word n)
    (hm : ShownOn text before word m) : n = m := by
  suffices hle : ∀ n m, ShownOn text before word n → ShownOn text before word m → n ≤ m from
    Nat.le_antisymm (hle n m hn hm) (hle m n hm hn)
  rintro n m ⟨left, right, hline, hbefore⟩ ⟨left', right', hline', hbefore'⟩
  by_contra hlt
  -- the word begins inside line `m`, and the lines before `n` hold all of that line
  have hpart : ((bufferLines text).take (m + 1)).flatten <+: ((bufferLines text).take n).flatten :=
    List.IsPrefix.flatten (List.take_prefix_take_left (by omega))
  have hlength := hpart.length_le
  rw [List.take_add_one, hline', List.flatten_append, List.length_append] at hlength
  have heq := congrArg List.length (hbefore.symm.trans hbefore')
  have hpos := List.length_pos_iff.mpr hword
  simp at hlength heq
  omega

/-- **The line a word is shown on** is found by counting the breaks before it,
and it is shown if no break is inside it. -/
theorem shownOn_iff (hword : Solid word) (before after : List Char) (n : Nat) :
    ShownOn (before ++ word ++ after) before word n ↔
      n = lineFeeds before + loneBreaks before ∧ ∀ c ∈ word, isBreak c = false := by
  constructor
  · intro h
    have hbreakless := breakless_of_shownOn hword h
    exact ⟨shownOn_unique hword.ne_nil h (shownOn_of_breakless hword hbreakless before after),
      hbreakless⟩
  · rintro ⟨rfl, hbreakless⟩
    exact shownOn_of_breakless hword hbreakless before after

/-- Where there are no lone breaks, none is before a word and none inside it. -/
theorem breakless_of_loneBreaks (hword : Solid word) (hfeed : '\n' ∉ word)
    (h : loneBreaks (before ++ word ++ after) = 0) :
    loneBreaks before = 0 ∧ ∀ c ∈ word, isBreak c = false := by
  rw [List.append_assoc, loneBreaks_append (head?_ne_feed hfeed hword.ne_nil after)] at h
  refine ⟨by omega, ?_⟩
  intro c hc
  by_contra hbreak
  rw [Bool.not_eq_false] at hbreak
  obtain ⟨front, back, rfl⟩ := List.append_of_mem hc
  obtain ⟨d, back, rfl⟩ := List.exists_cons_of_ne_nil (hword.ne_nil_after hbreak)
  simp only [List.mem_append, List.mem_cons, not_or] at hfeed
  obtain ⟨-, hcfeed, hdfeed, -⟩ := hfeed
  have hseam : (c :: d :: (back ++ after)).head? ≠ some '\n' := fun heq =>
    hcfeed (Option.some.inj heq).symm
  have hpair : ∀ rest', c = '\r' → d :: (back ++ after) = '\n' :: rest' → False :=
    fun _ _ heq => hdfeed (List.cons.inj heq).1.symm
  have hcount := loneBreaks_append hseam front
  rw [loneBreaks.eq_3 c _ hpair] at hcount
  simp [hbreak, Ne.symm hcfeed] at hcount h
  omega

end Text

open Markup

namespace Session

variable {disk : Disk} {s : Session} {path : Path} {text : String} {before word : List Char}
  {n : Nat}

/-! ### Lines of a session -/

/-- What the lines of a buffer before line `n` show. -/
def above (disk : Disk) (s : Session) (path : Path) (n : Nat) : List Char :=
  (List.range n).flatMap fun k => ((s.lineText? disk path k).getD "").toList

/-- Line `n` of the buffer at a path shows the word that stands after `before`. -/
def Shows (disk : Disk) (s : Session) (path : Path) (before word : List Char) (n : Nat) : Prop :=
  ∃ line left right, s.lineText? disk path n = some line ∧
    line.toList = left ++ word ++ right ∧ before = s.above disk path n ++ left

theorem lineText?_eq (h : s.text? disk path = some text) (n : Nat) :
    s.lineText? disk path n = (bufferLines text.toList)[n]?.map String.ofList := by
  rw [lineText?, h]
  show ((bufferLines text.toList)[n]?).bind (fun line => some (String.ofList line)) = _
  cases (bufferLines text.toList)[n]? <;> rfl

theorem above_eq (h : s.text? disk path = some text) (n : Nat) :
    s.above disk path n = ((bufferLines text.toList).take n).flatten := by
  induction n with
  | zero => rfl
  | succ n ih =>
      rw [above] at ih
      rw [above, List.range_succ, List.flatMap_append, ih, List.take_add_one,
        List.flatten_append]
      cases hn : (bufferLines text.toList)[n]? <;> simp [lineText?_eq h, hn]

theorem shows_iff_shownOn (h : s.text? disk path = some text) :
    s.Shows disk path before word n ↔ ShownOn text.toList before word n := by
  simp only [Shows, ShownOn, above_eq h, lineText?_eq h, Option.map_eq_some_iff]
  constructor
  · rintro ⟨-, left, right, ⟨line, hline, rfl⟩, heq, hbefore⟩
    rw [String.toList_ofList] at heq
    exact ⟨left, right, heq ▸ hline, hbefore⟩
  · rintro ⟨left, right, hline, hbefore⟩
    exact ⟨_, left, right, ⟨_, hline, rfl⟩, String.toList_ofList, hbefore⟩

theorem Shows.exists_line (h : s.Shows disk path before word n) :
    ∃ line, s.lineText? disk path n = some line ∧ word <:+: line.toList := by
  obtain ⟨line, left, right, hline, heq, -⟩ := h
  exact ⟨line, hline, left, right, heq.symm⟩

/-- The first character of a key found in a text stands after as many line feeds
as the number of its line says. -/
theorem exists_before_of_mem_keys {o : Occurrence} (ho : o ∈ (scan text).keys) :
    '\n' ∉ o.key.toList ∧ Solid o.key.toList ∧ ∃ before after,
      text.toList = before ++ o.key.toList ++ after ∧ lineFeeds before = o.line := by
  obtain ⟨line, hline, ⟨left, right, hkey⟩, hsolid⟩ := written_of_mem_keys ho
  have hfeed : '\n' ∉ left ++ o.key.toList ++ right :=
    hkey ▸ feed_notMem_of_mem_sourceLines (List.mem_of_getElem? hline)
  simp only [List.mem_append, not_or] at hfeed
  obtain ⟨start, rest, htext, hstart⟩ := exists_before_of_sourceLines hline
  refine ⟨hfeed.1.2, hsolid, start ++ left, right ++ rest, ?_, ?_⟩
  · rw [htext, ← hkey]
    simp
  · rw [lineFeeds, List.count_append, List.count_eq_zero.mpr hfeed.1.1, Nat.add_zero]
    exact hstart

/-- **Two numberings of lines.**  A key that the index places on line `l` stands
in the text after `l` line feeds.  Wherever it does, the one line of the buffer
that shows it is `l` plus the number of lone breaks before it, and there is none
if the key itself holds a break.  So in a text without lone breaks the buffer
line `l` shows the key. -/
theorem key_shown_iff (disk : Disk) (s : Session) (path : Path) (text : String)
    (h : s.text? disk path = some text) (o : Occurrence) (ho : o ∈ (scan text).keys) :
    (∃ before after, text.toList = before ++ o.key.toList ++ after ∧ lineFeeds before = o.line) ∧
    (∀ before after, text.toList = before ++ o.key.toList ++ after → lineFeeds before = o.line →
      ∀ n, s.Shows disk path before o.key.toList n ↔
        n = o.line + loneBreaks before ∧ ∀ c ∈ o.key.toList, isBreak c = false) ∧
    (loneBreaks text.toList = 0 →
      ∃ line, s.lineText? disk path o.line = some line ∧ o.key.toList <:+: line.toList) := by
  obtain ⟨hfeed, hsolid, hplace⟩ := exists_before_of_mem_keys ho
  have hshown : ∀ before after, text.toList = before ++ o.key.toList ++ after →
      lineFeeds before = o.line → ∀ n, s.Shows disk path before o.key.toList n ↔
        n = o.line + loneBreaks before ∧ ∀ c ∈ o.key.toList, isBreak c = false := by
    intro before after htext hline n
    rw [shows_iff_shownOn h, htext, shownOn_iff hsolid, hline]
  refine ⟨hplace, hshown, ?_⟩
  intro hlone
  obtain ⟨before, after, htext, hline⟩ := hplace
  rw [htext] at hlone
  obtain ⟨hzero, hbreakless⟩ := breakless_of_loneBreaks hsolid hfeed hlone
  refine ((hshown before after htext hline o.line).mpr ⟨?_, hbreakless⟩).exists_line
  rw [hzero, Nat.add_zero]

/-- A session over a buffer whose first line ends at a form feed. -/
def formFeedSession : Session where
  settings := {}
  start := ⟨"/m.tex"⟩
  master := ⟨"/m.tex"⟩
  buffers := [(⟨"/m.tex"⟩, ⟨"\x0c\n\\label{a}\n", 1⟩)]
  snapshot := .empty ⟨"/m.tex"⟩
  generation := 0
  built := false

theorem key_shown_iff_formFeed :
    formFeedSession.text? ⟨[], [], "/"⟩ ⟨"/m.tex"⟩ = some "\x0c\n\\label{a}\n" ∧
    ⟨"a", 1⟩ ∈ (scan "\x0c\n\\label{a}\n").keys ∧
    "\x0c\n\\label{a}\n".toList = "\x0c\n\\label\x7b".toList ++ "a".toList ++ "\x7d\n".toList ∧
    lineFeeds "\x0c\n\\label\x7b".toList = 1 ∧
    ∀ n, formFeedSession.Shows ⟨[], [], "/"⟩ ⟨"/m.tex"⟩ "\x0c\n\\label\x7b".toList "a".toList n ↔
      n = 1 + loneBreaks "\x0c\n\\label\x7b".toList ∧ ∀ c ∈ "a".toList, isBreak c = false := by
  have htext : formFeedSession.text? ⟨[], [], "/"⟩ ⟨"/m.tex"⟩ = some "\x0c\n\\label{a}\n" := rfl
  have hkey : ⟨"a", 1⟩ ∈ (scan "\x0c\n\\label{a}\n").keys := by decide
  refine ⟨htext, hkey, rfl, rfl, ?_⟩
  exact (key_shown_iff _ _ _ _ htext ⟨"a", 1⟩ hkey).2.1 _ "\x7d\n".toList rfl rfl

/-- A label that the index places on line 1 stands on line 2 of the buffer, and
line 1 of the buffer is empty but for its break. -/
theorem label_not_on_its_line :
    ¬ ∀ (disk : Disk) (s : Session) (path : Path) (text : String),
      s.text? disk path = some text → ∀ o ∈ (scan text).keys,
        ∃ line, s.lineText? disk path o.line = some line ∧ o.key.toList <:+: line.toList := by
  intro h
  obtain ⟨line, hline, hkey⟩ := h ⟨[], [], "/"⟩ formFeedSession ⟨"/m.tex"⟩ "\x0c\n\\label{a}\n" rfl
    ⟨"a", 1⟩ (by decide)
  have hbreak : formFeedSession.lineText? ⟨[], [], "/"⟩ ⟨"/m.tex"⟩ 1 = some "\n" := rfl
  obtain rfl : "\n" = line := Option.some.inj (hbreak.symm.trans hline)
  exact find?_eq_none_iff.mp (show find? ['a'] ['\n'] = none by decide) hkey

end Session

end LatexIndex
