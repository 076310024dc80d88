/-
LatexIndex/Proofs/Enclosing.lean

The innermost environment around a line.

The search for a begin reads backwards and the search for an end forwards.  The
markers count differently on the line itself, but in both cases there is one cut
through the markers of the document such that the backward run reads what is
before it and the forward run what is after it (`exists_cut`).  So the two
halves fit together: what they find is an environment around the line, and the
innermost one if the markers are well nested (`locate_innermost`).
-/
import LatexIndex.Proofs.Markers
import LatexIndex.Proofs.Nesting

namespace LatexIndex

open Text

namespace Markup

/-! ### Around a line -/

/-- A begin and its end around a line, the lines of both included. -/
def Encloses (markers : List Marker) (line : Nat) (o c : Marker) : Prop :=
  Matched markers o c ∧ o.line ≤ line ∧ line ≤ c.line

/-- Of all environments around a line the one that begins last. -/
def Innermost (markers : List Marker) (line : Nat) (o c : Marker) : Prop :=
  Encloses markers line o c ∧
    ∀ o' c', Encloses markers line o' c' → o' = o ∨ o.follows o' = true

variable {m o c : Marker} {markers before after : List Marker} {line : Nat}

/-! ### The cut -/

/-- The markers before and after the cursor on a line.  Before it are those of
earlier lines, and if there are begins on the line, all up to the last of
them. -/
structure Cut (line : Nat) (before after : List Marker) : Prop where
  line_le : ∀ m ∈ before, m.line ≤ line
  le_line : ∀ m ∈ after, line ≤ m.line
  begins : ∀ m ∈ after, m.isOpen = true → line < m.line
  earlier : (∀ m ∈ before, m.line < line) ∨
    ∃ o, before.getLast? = some o ∧ o.isOpen = true

/-- The two searches, one on either side of a cut. -/
def enclosingAt? (before after : List Marker) : Option Span :=
  (openingBefore? [] before.reverse).bind fun o =>
    (closingAfter? o.name [] after).map fun c => ⟨o.name, o.line, c.line⟩

theorem enclosing?_eq (markers : List Marker) (line : Nat) :
    enclosing? markers line
      = (openingBefore? [] (markers.filter (·.isBefore line)).reverse).bind fun o =>
          (closingAfter? o.name [] (if o.line = line then markers.filter (·.follows o)
            else markers.filter (line ≤ ·.line))).map fun c => ⟨o.name, o.line, c.line⟩ := by
  simp only [enclosing?, Option.map_eq_bind]
  rfl

/-- A list in order is what is small in it and then what is large. -/
theorem filter_append_filter (h : markers.Pairwise fun a b => b.follows a = true) (line : Nat) :
    markers.filter (·.line < line) ++ markers.filter (line ≤ ·.line) = markers := by
  induction markers with
  | nil => rfl
  | cons a markers ih =>
      obtain ⟨hafter, hrest⟩ := List.pairwise_cons.mp h
      by_cases ha : a.line < line
      · have hnot : ¬ line ≤ a.line := by omega
        simp [ha, hnot, ih hrest]
      · have hlate : ∀ m ∈ a :: markers, line ≤ m.line := by
          intro m hm
          rcases List.mem_cons.mp hm with rfl | hm
          · omega
          · have hfollows := follows_iff.mp (hafter m hm)
            omega
        rw [List.filter_eq_nil_iff.mpr, List.filter_eq_self.mpr, List.nil_append]
        · intro m hm
          simpa using hlate m hm
        · intro m hm
          simpa using hlate m hm

/-- A document with a begin on the line is cut after the last of them. -/
theorem cut_of_begin {init : List Marker}
    (h : (init ++ o :: after).Pairwise fun a b => b.follows a = true) (ho : o.isOpen = true)
    (hafter : ∀ m ∈ after, ¬ (m.line = o.line ∧ m.isOpen = true)) :
    Cut o.line (init ++ [o]) after ∧
      enclosing? (init ++ o :: after) o.line = enclosingAt? (init ++ [o]) after := by
  obtain ⟨-, hright, hcross⟩ := List.pairwise_append.mp h
  obtain ⟨hlater, -⟩ := List.pairwise_cons.mp hright
  have hinit : ∀ m ∈ init, o.follows m = true := fun m hm => hcross m hm o List.mem_cons_self
  have hlines : ∀ m ∈ after, o.line ≤ m.line := by
    intro m hm
    have hfollows := follows_iff.mp (hlater m hm)
    omega
  constructor
  · refine ⟨fun m hm => ?_, hlines, fun m hm hopen => ?_, .inr ⟨o, by simp, ho⟩⟩
    · rcases List.mem_append.mp hm with hm | hm
      · have hfollows := follows_iff.mp (hinit m hm)
        omega
      · exact Nat.le_of_eq (congrArg _ (List.mem_singleton.mp hm))
    · exact Nat.lt_of_le_of_ne (hlines m hm) fun heq => hafter m hm ⟨heq.symm, hopen⟩
  · -- looking back, the begin `o` is met first
    have hback : (init ++ o :: after).filter (·.isBefore o.line)
        = init.filter (·.isBefore o.line) ++ [o] := by
      rw [List.filter_append, List.filter_cons_of_pos (by simp [Marker.isBefore, ho])]
      refine congrArg _ (congrArg _ (List.filter_eq_nil_iff.mpr fun m hm => ?_))
      have hne := hafter m hm
      have hle := hlines m hm
      simp only [Marker.isBefore, Bool.or_eq_true, decide_eq_true_eq, Bool.and_eq_true, beq_iff_eq]
      rintro (hlt | hboth)
      · omega
      · exact hne hboth
    have hforward : (init ++ o :: after).filter (·.follows o) = after := by
      rw [List.filter_append, List.filter_cons_of_neg, List.filter_eq_nil_iff.mpr,
        List.filter_eq_self.mpr hlater, List.nil_append]
      · intro m hm
        have hfollows := follows_iff.mp (hinit m hm)
        rw [follows_iff]
        omega
      · rw [follows_iff]
        omega
    have hfirst : ∀ before : List Marker, openingBefore? [] (before ++ [o]).reverse = some o := by
      intro before
      simp [openingBefore?, ho]
    rw [enclosing?_eq, enclosingAt?, hback, hfirst, hfirst, Option.bind_some, Option.bind_some,
      if_pos rfl, hforward]

/-- **The cut**: on every line the two searches run on either side of a cut
through the markers. -/
theorem exists_cut (h : markers.Pairwise fun a b => b.follows a = true) (line : Nat) :
    ∃ before after, markers = before ++ after ∧ Cut line before after ∧
      enclosing? markers line = enclosingAt? before after := by
  rcases hlast : markers.reverse.find? (fun m => m.line == line && m.isOpen) with - | o
  · -- no begin on the line: only the lines before it count on the way back
    rw [List.find?_eq_none] at hlast
    have hno : ∀ m ∈ markers, ¬ (m.line = line ∧ m.isOpen = true) := by
      intro m hm
      simpa using hlast m (List.mem_reverse.mpr hm)
    have hback : markers.filter (·.isBefore line) = markers.filter (·.line < line) := by
      refine List.filter_congr fun m hm => ?_
      have hm := hno m hm
      rw [Bool.eq_iff_iff]
      simp [Marker.isBefore, hm]
    have hearlier : ∀ m ∈ markers.filter (·.line < line), m.line < line := by
      simp
    refine ⟨_, _, (filter_append_filter h line).symm, ⟨?_, ?_, ?_, .inl hearlier⟩, ?_⟩
    · exact fun m hm => Nat.le_of_lt (hearlier m hm)
    · simp
    · intro m hm hopen
      obtain ⟨hm, hle⟩ := List.mem_filter.mp hm
      exact Nat.lt_of_le_of_ne (of_decide_eq_true hle) fun heq => hno m hm ⟨heq.symm, hopen⟩
    · rw [enclosing?_eq, enclosingAt?, hback]
      refine Option.bind_congr fun o hopening => ?_
      -- the begin was found on an earlier line
      obtain ⟨outer, inner, hsplit, -⟩ := openingBefore?_reverse_eq_some_iff.mp hopening
      have hmem : o ∈ markers.filter (·.line < line) := by simp [hsplit]
      rw [if_neg (Nat.ne_of_lt (hearlier o hmem))]
  · obtain ⟨ho, as, bs, hsplit, has⟩ := List.find?_eq_some_iff_append.mp hlast
    simp only [Bool.and_eq_true, beq_iff_eq] at ho
    obtain ⟨rfl, ho⟩ := ho
    have hmarkers : markers = bs.reverse ++ o :: as.reverse := by
      rw [← List.reverse_reverse markers, hsplit]
      simp
    subst hmarkers
    have hlater : ∀ m ∈ as.reverse, ¬ (m.line = o.line ∧ m.isOpen = true) := by
      intro m hm hboth
      have hfound := has m (List.mem_reverse.mp hm)
      simp [hboth] at hfound
    obtain ⟨hcut, heq⟩ := cut_of_begin h ho hlater
    exact ⟨_, _, by simp, hcut, heq⟩

/-! ### What the searches find -/

/-- What the two searches find is an environment around the line, be the markers
well nested or not. -/
theorem Cut.encloses (h : Cut line before after) {span : Span}
    (hs : enclosingAt? before after = some span) :
    ∃ o c, Encloses (before ++ after) line o c ∧ span = ⟨o.name, o.line, c.line⟩ := by
  obtain ⟨o, hopening, hs⟩ := Option.bind_eq_some_iff.mp hs
  obtain ⟨c, hclosing, rfl⟩ := Option.map_eq_some_iff.mp hs
  obtain ⟨outer, inner, rfl, hinner, ho⟩ := openingBefore?_reverse_eq_some_iff.mp hopening
  obtain ⟨inner', rest, rfl, hinner', hc, hname⟩ := closingAfter?_eq_some_iff.mp hclosing
  refine ⟨o, c, ⟨⟨outer, inner ++ inner', rest, by simp, ho, hc, hname.symm, ?_⟩, ?_, ?_⟩, rfl⟩
  · exact hinner.append (nested_iff.mpr hinner')
  · exact h.line_le o (by simp)
  · exact h.le_line c (by simp)

/-- The begin of an environment around the line is before the cut.  It still
waits for its end there, or a begin is the last marker before the cut. -/
theorem Cut.split_of_encloses (h : Cut line before after)
    (he : Encloses (before ++ after) line o c) :
    ∃ outer inner, before = outer ++ o :: inner ∧
      ((∃ rest, Nested (inner ++ rest)) ∨ ∃ b, before.getLast? = some b ∧ b.isOpen = true) := by
  obtain ⟨⟨outer, inner, rest, heq, ho, hc, -, hinner⟩, hle, hge⟩ := he
  have hnot : o ∉ after := fun hmem => by
    have hlt := h.begins o hmem ho
    omega
  rcases List.append_eq_append_iff.mp heq with ⟨as, rfl, hafter⟩ | ⟨as, rfl, hafter⟩
  · exact absurd (by simp [hafter]) hnot
  rcases as with - | ⟨o', as⟩
  · rw [List.nil_append] at hafter
    exact absurd (by simp [← hafter]) hnot
  rw [List.cons_append, List.cons.injEq] at hafter
  obtain ⟨rfl, hafter⟩ := hafter
  refine ⟨outer, as, rfl, ?_⟩
  rcases List.append_eq_append_iff.mp hafter with ⟨bs, rfl, hbs⟩ | ⟨bs, rfl, hbs⟩
  · rcases bs with - | ⟨c', bs⟩
    · exact .inl ⟨[], by simpa using hinner⟩
    · -- the end is on the line and before the cut
      rw [List.cons_append, List.cons.injEq] at hbs
      obtain ⟨rfl, -⟩ := hbs
      refine .inr (h.earlier.resolve_left fun hearlier => ?_)
      have hlt := hearlier c (by simp)
      omega
  · exact .inl ⟨bs, hinner⟩

/-- With nothing open at the cut, no environment is around the line. -/
theorem Cut.not_encloses (h : Cut line before after) (hs : stackAfter true [] before = some []) :
    ¬ Encloses (before ++ after) line o c := by
  intro he
  obtain ⟨outer, inner, heq, ⟨rest, hrest⟩ | ⟨b, hlast, hb⟩⟩ := h.split_of_encloses he
  · obtain ⟨⟨-, -, -, -, ho, -⟩, -⟩ := he
    rw [heq] at hs
    exact stackAfter_ne_nil ho hrest hs
  · obtain ⟨init, rfl⟩ := List.getLast?_eq_some_iff.mp hlast
    exact stackAfter_ne_nil hb (Nested.nil : Nested ([] ++ [])) hs

/-- The last begin that is open at the cut is the last of all whose environment
is around the line. -/
theorem Cut.innermost {outer inner : List Marker} (h : Cut line (outer ++ o :: inner) after)
    (hp : (outer ++ o :: inner ++ after).Pairwise fun a b => b.follows a = true)
    (hinner : Nested inner) {o' c' : Marker}
    (he : Encloses (outer ++ o :: inner ++ after) line o' c') :
    o' = o ∨ o.follows o' = true := by
  obtain ⟨outer', inner', heq, hopen⟩ := h.split_of_encloses he
  obtain ⟨⟨-, -, -, -, ho', -⟩, -⟩ := he
  rcases List.append_eq_append_iff.mp heq with ⟨as, rfl, hsplit⟩ | ⟨as, rfl, hsplit⟩
  · rcases as with - | ⟨b, as⟩
    · exact .inl (List.cons.inj hsplit).1.symm
    · -- `o'` would be inside the environment, and some begin open at its end
      rw [List.cons_append, List.cons.injEq] at hsplit
      obtain ⟨rfl, rfl⟩ := hsplit
      rw [nested_iff] at hinner
      rcases hopen with ⟨rest, hrest⟩ | ⟨b, hlast, hb⟩
      · exact absurd hinner (stackAfter_ne_nil ho' hrest)
      · have hlast : (as ++ o' :: inner').getLast? = some b := by
          simpa [List.getLast?_append, List.getLast?_cons] using hlast
        obtain ⟨init, hinit⟩ := List.getLast?_eq_some_iff.mp hlast
        rw [hinit] at hinner
        exact absurd hinner (stackAfter_ne_nil hb (Nested.nil : Nested ([] ++ [])))
  · rcases as with - | ⟨b, as⟩
    · exact .inl (List.cons.inj hsplit).1
    · rw [List.cons_append, List.cons.injEq] at hsplit
      obtain ⟨rfl, -⟩ := hsplit
      have hbefore := (List.pairwise_append.mp hp).1
      exact .inr ((List.pairwise_append.mp hbefore).2.2 o' (by simp) o List.mem_cons_self)

/-- **If the markers are well nested**, the searches find the innermost
environment around the line, or there is none. -/
theorem Cut.innermost_or_none (h : Cut line before after)
    (hp : (before ++ after).Pairwise fun a b => b.follows a = true)
    (hn : Nested (before ++ after)) :
    (∃ o c, Innermost (before ++ after) line o c ∧
        enclosingAt? before after = some ⟨o.name, o.line, c.line⟩) ∨
      (enclosingAt? before after = none ∧ ∀ o c, ¬ Encloses (before ++ after) line o c) := by
  obtain ⟨names, hbefore, hafter⟩ := exists_stackAfter hn
  rcases names with - | ⟨name, names⟩
  · right
    have hnone : ∀ o c, ¬ Encloses (before ++ after) line o c := fun _ _ => h.not_encloses hbefore
    refine ⟨?_, hnone⟩
    rcases hs : enclosingAt? before after with - | span
    · rfl
    · obtain ⟨o, c, he, -⟩ := h.encloses hs
      exact absurd he (hnone o c)
  · left
    obtain ⟨outer, o, inner, rfl, hinner, ho, rfl⟩ := exists_opening hbefore
    obtain ⟨inner', c, rest, rfl, hinner', hc, hname, -⟩ := exists_pop hafter
    have hs : enclosingAt? (outer ++ o :: inner) (inner' ++ c :: rest)
        = some ⟨o.name, o.line, c.line⟩ := by
      rw [enclosingAt?, openingBefore?_reverse_eq_some_iff.mpr ⟨outer, inner, rfl, hinner, ho⟩,
        Option.bind_some, closingAfter?_eq_some_iff.mpr
          ⟨inner', rest, rfl, hinner', by simpa using hc, hname⟩]
      rfl
    have hmatched : Matched (outer ++ o :: inner ++ (inner' ++ c :: rest)) o c :=
      ⟨outer, inner ++ inner', rest, by simp, ho, by simpa using hc, hname.symm,
        hinner.append (nested_iff.mpr hinner')⟩
    refine ⟨o, c, ⟨⟨hmatched, ?_, ?_⟩, fun o' c' => h.innermost hp hinner⟩, hs⟩
    · exact h.line_le o (by simp)
    · exact h.le_line c (by simp)

theorem not_follows_self : ¬ m.follows m = true := by
  rw [follows_iff]
  omega

/-- A begin has only one end. -/
theorem Matched.unique (hp : markers.Pairwise fun a b => b.follows a = true) {c' : Marker}
    (h : Matched markers o c) (h' : Matched markers o c') : c = c' := by
  obtain ⟨outer, inner, rest, rfl, -, hc, hname, hinner⟩ := h
  obtain ⟨outer', inner', rest', heq, -, hc', hname', hinner'⟩ := h'
  -- `o` is there only once, so both ends are looked for from the same place
  obtain ⟨-, htail, hcross⟩ := List.pairwise_append.mp hp
  have hout : o ∉ outer := fun hmem => not_follows_self (hcross o hmem o List.mem_cons_self)
  have hin : o ∉ inner ++ c :: rest :=
    fun hmem => not_follows_self ((List.pairwise_cons.mp htail).1 o hmem)
  obtain ⟨-, -, hsame⟩ := (List.append_cons_inj_of_notMem hout hin).mp heq
  have hfirst := closingAfter?_eq_some_iff.mpr
    ⟨inner, rest, rfl, nested_iff.mp hinner, hc, hname.symm⟩
  have hsecond := closingAfter?_eq_some_iff.mpr
    ⟨inner', rest', hsame, nested_iff.mp hinner', hc', hname'.symm⟩
  exact Option.some.inj (hfirst.symm.trans hsecond)

theorem Innermost.unique (hp : markers.Pairwise fun a b => b.follows a = true) {o' c' : Marker}
    (h : Innermost markers line o c) (h' : Innermost markers line o' c') : o = o' ∧ c = c' := by
  have ho : o = o' := by
    rcases h.2 o' c' h'.1 with heq | hlt
    · exact heq.symm
    · rcases h'.2 o c h.1 with heq | hgt
      · exact heq
      · rw [follows_iff] at hlt hgt
        omega
  subst ho
  exact ⟨rfl, h.1.1.unique hp h'.1.1⟩

/-- What is found is the innermost environment exactly if what is found is that
or nothing, and nothing only if there is none. -/
theorem iff_of_innermost_or_none (hp : markers.Pairwise fun a b => b.follows a = true)
    {found : Option Span}
    (h : (∃ o c, Innermost markers line o c ∧ found = some ⟨o.name, o.line, c.line⟩) ∨
      (found = none ∧ ∀ o c, ¬ Encloses markers line o c)) :
    (∀ span, found = some span ↔
      ∃ o c, Innermost markers line o c ∧ span = ⟨o.name, o.line, c.line⟩) ∧
    (found = none ↔ ∀ o c, ¬ Encloses markers line o c) := by
  rcases h with ⟨o, c, hin, rfl⟩ | ⟨rfl, hall⟩
  · constructor
    · intro span
      constructor
      · intro hspan
        exact ⟨o, c, hin, (Option.some.inj hspan).symm⟩
      · rintro ⟨o', c', hin', rfl⟩
        obtain ⟨rfl, rfl⟩ := hin.unique hp hin'
        rfl
    · simpa using ⟨o, c, hin.1⟩
  · constructor
    · intro span
      simp only [reduceCtorEq, false_iff]
      rintro ⟨o, c, hin, -⟩
      exact hall o c hin.1
    · simpa using hall

end Markup

/-! ### Locating -/

theorem Text.length_bufferLines_cons {c : Char} {rest : List Char}
    (h : ∀ rest', c = '\r' → rest = '\n' :: rest' → False) :
    1 ≤ (bufferLines (c :: rest)).length ∧
      (bufferLines rest).length ≤ (bufferLines (c :: rest)).length := by
  rw [bufferLines.eq_3 c rest h]
  split
  · simp
  · split <;> simp_all

/-- An editor shows at least as many lines as a source has. -/
theorem Text.length_sourceLines_le (text : List Char) :
    (sourceLines text).length ≤ (bufferLines text).length := by
  induction text using sourceLines.induct with
  | case1 => simp [sourceLines]
  | case2 rest ih => simpa [sourceLines, bufferLines, isBreak] using ih
  | case3 rest ih => simpa [sourceLines, bufferLines] using ih
  | case4 c rest hfeed hpair hnil ih =>
      rw [sourceLines.eq_4 c rest hfeed hpair, hnil]
      exact (length_bufferLines_cons hpair).1
  | case5 c rest hfeed hpair line more hlines ih =>
      rw [sourceLines.eq_4 c rest hfeed hpair, hlines]
      rw [hlines] at ih
      exact Nat.le_trans ih (length_bufferLines_cons hpair).2

namespace Markup

theorem line_lt_of_encloses {text : String} {line : Nat} {o c : Marker}
    (h : Encloses (scan text).markers line o c) : line < (bufferLines text.toList).length := by
  obtain ⟨⟨outer, inner, rest, heq, -⟩, -, hle⟩ := h
  have hmem : c ∈ (scan text).markers := by simp [heq]
  have hlt := (line_of_mem_markersOf hmem).2
  have hlength := length_sourceLines_le text.toList
  omega

/-- **The environment around a line.**  Whatever is found is a begin with an end
of its name, one on the line or before it and the other on it or after it, with
well nested markers between them.  And if all markers are well nested, what is
found is the environment around the line that begins last, and nothing is found
exactly if there is none. -/
theorem locate_innermost (text : String) (line : Nat) :
    (∀ span, locate? text line = some span →
      ∃ o c, Encloses (scan text).markers line o c ∧ span = ⟨o.name, o.line, c.line⟩) ∧
    (Nested (scan text).markers →
      (∀ span, locate? text line = some span ↔
        ∃ o c, Innermost (scan text).markers line o c ∧ span = ⟨o.name, o.line, c.line⟩) ∧
      (locate? text line = none ↔ ∀ o c, ¬ Encloses (scan text).markers line o c)) := by
  have hp := pairwise_markers text
  obtain ⟨before, after, heq, hcut, hsearch⟩ := exists_cut hp line
  by_cases hline : line < (bufferLines text.toList).length
  · have hlocate : locate? text line = enclosingAt? before after := by
      rw [locate?, if_pos hline, hsearch]
    rw [hlocate, heq]
    rw [heq] at hp
    exact ⟨fun span => hcut.encloses,
      fun hn => iff_of_innermost_or_none hp (hcut.innermost_or_none hp hn)⟩
  · -- past the end of the text there is nothing to be around
    have hlocate : locate? text line = none := by
      rw [locate?, if_neg hline]
    have hall : ∀ o c, ¬ Encloses (scan text).markers line o c :=
      fun o c he => hline (line_lt_of_encloses he)
    rw [hlocate]
    refine ⟨fun span hfalse => ?_, fun _ => iff_of_innermost_or_none hp (.inr ⟨rfl, hall⟩)⟩
    cases hfalse

/-- Environments next to each other and inside each other, some on one line. -/
def nestedText : String :=
  "\\begin{a}\n\\begin{b}\\end{b}\\begin{c}\n\\end{c}\n\\end{a}\n"

theorem locate_innermost_nested :
    Nested (scan nestedText).markers ∧ locate? nestedText 1 = some ⟨"c", 1, 2⟩ ∧
      (∃ o c, Innermost (scan nestedText).markers 1 o c ∧
        (⟨"c", 1, 2⟩ : Span) = ⟨o.name, o.line, c.line⟩) ∧
      ∀ o c, ¬ Encloses (scan nestedText).markers 4 o c := by
  have hnested : Nested (scan nestedText).markers := by decide
  have hfound : locate? nestedText 1 = some ⟨"c", 1, 2⟩ := by decide
  have hnone : locate? nestedText 4 = none := by decide
  refine ⟨hnested, hfound, ?_, ?_⟩
  · exact (((locate_innermost nestedText 1).2 hnested).1 _).mp hfound
  · exact ((locate_innermost nestedText 4).2 hnested).2.mp hnone

end Markup

end LatexIndex
