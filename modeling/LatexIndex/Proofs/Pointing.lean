/-
LatexIndex/Proofs/Pointing.lean

What the cursor points at.

Directives stand inside the arguments of other directives, so several of them may
reach over the cursor.  The one that is asked is the *outermost*, which starts
first (`find?_covers_iff`), and not the innermost, which starts last.  The answer
depends on that directive alone (`targetAt?_of_outermost`).

Among the parts of a citation the one under the cursor is found by its position.
The parts lie one behind the other with a comma between any two
(`pairwise_keyPartsFrom`), so that the cursor is in at most one of them.
-/
import LatexIndex.Cursor.Key
import LatexIndex.Proofs.Markers
import LatexIndex.Proofs.FileNames

namespace LatexIndex

open Text Markup

/-! ### Pieces and what stands before them -/

/-- The pieces of a text, each with a separator behind it, are the text with a
separator behind it. -/
theorem Text.flatMap_splitOn (sep : Char) (cs : List Char) :
    (cs.splitOn sep).flatMap (· ++ [sep]) = cs ++ [sep] := by
  induction cs with
  | nil => rfl
  | cons c cs ih =>
      by_cases hc : c = sep
      · rw [hc, splitOn_cons_self, List.flatMap_cons, ih]
        rfl
      · obtain ⟨first, more, hcs, hcons⟩ := splitOn_cons_of_ne hc cs
        rw [hcs, List.flatMap_cons] at ih
        rw [hcons, List.flatMap_cons, List.cons_append, List.cons_append, ih]
        rfl

namespace Cursor

variable {start cursor : Nat} {argument before part : List Char} {kp : KeyPart}

/-- A part of a comma-separated argument, and what stands before it. -/
structure PartOf (argument before part : List Char) : Prop where
  text : ∃ rest, argument = before ++ part ++ rest ∧ (rest = [] ∨ rest.head? = some ',')
  commaless : ',' ∉ part
  first : before = [] ∨ before.getLast? = some ','

/-- The pieces of an argument are its parts; before each of them stand the
earlier ones, each with its comma. -/
theorem partOf_of_splitOn {xs ys : List (List Char)} (h : argument.splitOn ',' = xs ++ part :: ys) :
    PartOf argument (xs.flatMap (· ++ [','])) part where
  text := by
    have hall := flatMap_splitOn ',' argument
    rw [h, List.flatMap_append, List.flatMap_cons] at hall
    rcases List.eq_nil_or_concat' ys with rfl | ⟨init, last, rfl⟩
    · refine ⟨[], ?_, .inl rfl⟩
      apply (List.append_left_inj [',']).mp
      rw [← hall]
      simp
    · refine ⟨',' :: init.flatMap (· ++ [',']) ++ last, ?_, .inr rfl⟩
      apply (List.append_left_inj [',']).mp
      rw [← hall]
      simp
  commaless := by
    have hmem : part ∈ argument.splitOn ',' := by
      rw [h]
      exact List.mem_append_right xs List.mem_cons_self
    exact notMem_of_mem_splitOn hmem
  first := by
    rcases List.eq_nil_or_concat' xs with rfl | ⟨init, last, rfl⟩
    · exact .inl rfl
    · refine .inr ?_
      simp

theorem PartOf.exists_splitOn (h : PartOf argument before part) :
    ∃ xs ys, argument.splitOn ',' = xs ++ part :: ys ∧ xs.flatMap (· ++ [',']) = before := by
  obtain ⟨⟨rest, rfl, hrest⟩, hcomma, hfirst⟩ := h
  -- the part itself is the first piece of what begins with it
  obtain ⟨ys, hys⟩ : ∃ ys, (part ++ rest).splitOn ',' = part :: ys := by
    rcases rest with - | ⟨c, rest⟩
    · exact ⟨[], by rw [List.append_nil, List.splitOn_eq_singleton hcomma]⟩
    · obtain rfl : c = ',' := by simpa using hrest
      exact ⟨_, List.splitOn_append_cons_self_of_not_mem hcomma rest⟩
  rcases List.eq_nil_or_concat' before with rfl | ⟨init, last, rfl⟩
  · exact ⟨[], ys, hys, rfl⟩
  · obtain rfl : last = ',' := by simpa using hfirst
    refine ⟨init.splitOn ',', ys, ?_, flatMap_splitOn ',' init⟩
    rw [← hys, ← List.splitOn_append_cons_self]
    simp

/-! ### The parts of a citation -/

theorem start_le_of_mem_keyPartsFrom {parts : List (List Char)}
    (h : kp ∈ keyPartsFrom start parts) : start ≤ kp.start := by
  induction parts generalizing start with
  | nil => cases h
  | cons part more ih =>
      rcases List.mem_cons.mp h with rfl | h
      · exact Nat.le_refl _
      · have hlater := ih h
        omega

/-- The parts lie one behind the other. -/
theorem pairwise_keyPartsFrom (start : Nat) (parts : List (List Char)) :
    (keyPartsFrom start parts).Pairwise fun a b => a.stop < b.start := by
  induction parts generalizing start with
  | nil => exact .nil
  | cons part more ih =>
      refine List.pairwise_cons.mpr ⟨fun b hb => ?_, ih _⟩
      exact start_le_of_mem_keyPartsFrom hb

theorem mem_keyPartsFrom {parts : List (List Char)} :
    kp ∈ keyPartsFrom start parts ↔
      ∃ xs part ys, parts = xs ++ part :: ys ∧
        kp = ⟨start + (xs.flatMap (· ++ [','])).length,
          start + (xs.flatMap (· ++ [','])).length + part.length, String.ofList (trim part)⟩ := by
  induction parts generalizing start with
  | nil => simp [keyPartsFrom]
  | cons part more ih =>
      have hlength : ∀ xs : List (List Char),
          start + ((part :: xs).flatMap (· ++ [','])).length
            = start + part.length + 1 + (xs.flatMap (· ++ [','])).length := by
        intro xs
        rw [List.flatMap_cons, List.length_append, List.length_append, List.length_singleton]
        omega
      rw [keyPartsFrom, List.mem_cons, ih]
      constructor
      · rintro (rfl | ⟨xs, part', ys, rfl, rfl⟩)
        · exact ⟨[], part, more, rfl, rfl⟩
        · exact ⟨part :: xs, part', ys, rfl, by rw [hlength]⟩
      · rintro ⟨xs, part', ys, heq, rfl⟩
        rcases xs with - | ⟨x, xs⟩
        · obtain ⟨rfl, rfl⟩ := List.cons.inj heq
          exact .inl rfl
        · obtain ⟨rfl, rfl⟩ := List.cons.inj heq
          exact .inr ⟨xs, part', ys, rfl, by rw [hlength]⟩

/-- A part of an argument that starts at a position, and what stands before it. -/
def partAt (start : Nat) (before part : List Char) : KeyPart :=
  ⟨start + before.length, start + before.length + part.length, String.ofList (trim part)⟩

/-- **The parts of an argument and their positions.** -/
theorem mem_keyPartsFrom_splitOn :
    kp ∈ keyPartsFrom start (argument.splitOn ',') ↔
      ∃ before part, PartOf argument before part ∧ kp = partAt start before part := by
  rw [mem_keyPartsFrom]
  constructor
  · rintro ⟨xs, part, ys, h, rfl⟩
    exact ⟨_, part, partOf_of_splitOn h, rfl⟩
  · rintro ⟨before, part, h, rfl⟩
    obtain ⟨xs, ys, hpieces, rfl⟩ := h.exists_splitOn
    exact ⟨xs, part, ys, hpieces, rfl⟩

theorem map_key_keyPartsFrom (start : Nat) (parts : List (List Char)) :
    ((keyPartsFrom start parts).filter (·.key ≠ "")).map KeyPart.key
      = (parts.map fun part => String.ofList (trim part)).filter (· ≠ "") := by
  induction parts generalizing start with
  | nil => rfl
  | cons part more ih =>
      rw [keyPartsFrom, List.map_cons, List.filter_cons, List.filter_cons]
      split
      · rw [List.map_cons, ih]
      · exact ih _

/-- The cursor is in a part or directly behind it. -/
def Holds (start cursor : Nat) (before part : List Char) : Prop :=
  start + before.length ≤ cursor ∧ cursor ≤ start + before.length + part.length

theorem holds_iff :
    (decide ((partAt start before part).start ≤ cursor) &&
      decide (cursor ≤ (partAt start before part).stop)) = true ↔
      Holds start cursor before part := by
  rw [Bool.and_eq_true, decide_eq_true_iff, decide_eq_true_iff]
  rfl

/-- **The key under the cursor** is the one that is cited. -/
theorem citedKey?_of_holds (hpart : PartOf argument before part)
    (hholds : Holds start cursor before part) (hkey : String.ofList (trim part) ≠ "") :
    citedKey? start argument cursor = some (String.ofList (trim part)) := by
  have hmem : partAt start before part ∈
      (keyPartsFrom start (argument.splitOn ',')).filter (·.key ≠ "") :=
    List.mem_filter.mpr
      ⟨mem_keyPartsFrom_splitOn.mpr ⟨before, part, hpart, rfl⟩, decide_eq_true hkey⟩
  obtain ⟨xs, ys, hsplit⟩ := List.append_of_mem hmem
  have hapart := (pairwise_keyPartsFrom start (argument.splitOn ',')).filter (·.key ≠ "")
  rw [hsplit, List.pairwise_append] at hapart
  have hunder : ((keyPartsFrom start (argument.splitOn ',')).filter (·.key ≠ "")).find?
      (fun part => part.start ≤ cursor && cursor ≤ part.stop)
        = some (partAt start before part) := by
    rw [hsplit, List.find?_eq_some_iff_append]
    refine ⟨holds_iff.mpr hholds, xs, ys, rfl, fun kp hkp => ?_⟩
    -- what lies before the part ends before the cursor
    have hends : kp.stop < start + before.length := hapart.2.2 kp hkp _ List.mem_cons_self
    have hcursor := hholds.1
    simp only [Bool.not_eq_true', Bool.and_eq_false_iff, decide_eq_false_iff_not]
    right
    omega
  simp only [citedKey?, hunder, Option.some_or, Option.map_some, partAt]

/-- With the cursor on no key the first one is cited. -/
theorem citedKey?_of_not_holds (h : ∀ before part, PartOf argument before part →
      Holds start cursor before part → String.ofList (trim part) = "") :
    citedKey? start argument cursor = (splitKeys argument).head? := by
  have hunder : ((keyPartsFrom start (argument.splitOn ',')).filter (·.key ≠ "")).find?
      (fun part => part.start ≤ cursor && cursor ≤ part.stop) = none := by
    rw [List.find?_eq_none]
    intro kp hkp hin
    obtain ⟨hmem, hkey⟩ := List.mem_filter.mp hkp
    obtain ⟨before, part, hpart, rfl⟩ := mem_keyPartsFrom_splitOn.mp hmem
    exact absurd (h before part hpart (holds_iff.mp hin)) (of_decide_eq_true hkey)
  simp only [citedKey?, hunder, Option.none_or, ← List.head?_map, map_key_keyPartsFrom, splitKeys]

/-! ### The outermost directive -/

/-- A directive reaches over the cursor: it has a closed argument, and the cursor
is between its backslash and the brace that closes the argument. -/
def Reaches (cursor : Nat) (d : Directive) : Prop :=
  ∃ start argument, d.argument = .closed start argument ∧ d.start ≤ cursor ∧
    cursor ≤ start + argument.length

theorem covers_iff {d : Directive} : covers cursor d = true ↔ Reaches cursor d := by
  rw [covers, Reaches]
  rcases d.argument with - | first | ⟨first, text⟩ <;> simp [Argument.stop?]

/-- Of the directives of a line that reach over the cursor, the one that starts
first. -/
structure Outermost (line : List Char) (cursor : Nat) (d : Directive) : Prop where
  mem : d ∈ directives (stripComment line)
  reaches : Reaches cursor d
  first : ∀ e ∈ directives (stripComment line), Reaches cursor e → d.start ≤ e.start

/-- Of the directives of a line that reach over the cursor, the one that starts
last. -/
structure Innermost (line : List Char) (cursor : Nat) (d : Directive) : Prop where
  mem : d ∈ directives (stripComment line)
  reaches : Reaches cursor d
  last : ∀ e ∈ directives (stripComment line), Reaches cursor e → e.start ≤ d.start

theorem find?_covers_iff {line : List Char} {d : Directive} :
    (directives (stripComment line)).find? (covers cursor) = some d ↔ Outermost line cursor d := by
  have hsorted := pairwise_directivesFrom 0 (stripComment line)
  constructor
  · intro h
    obtain ⟨hcovers, xs, ys, hsplit, hbefore⟩ := List.find?_eq_some_iff_append.mp h
    refine ⟨List.mem_of_find?_eq_some h, covers_iff.mp hcovers, fun e he hreaches => ?_⟩
    rw [directives] at hsplit he
    rw [hsplit] at hsorted he
    rcases List.mem_append.mp he with he | he
    · exact absurd (covers_iff.mpr hreaches) (by simpa using hbefore e he)
    · rcases List.mem_cons.mp he with rfl | he
      · exact Nat.le_refl _
      · exact Nat.le_of_lt ((List.pairwise_cons.mp (List.pairwise_append.mp hsorted).2.1).1 e he)
  · rintro ⟨hmem, hreaches, hfirst⟩
    obtain ⟨xs, ys, hsplit⟩ := List.append_of_mem hmem
    rw [List.find?_eq_some_iff_append]
    refine ⟨covers_iff.mpr hreaches, xs, ys, hsplit, fun e he => ?_⟩
    rw [Bool.not_eq_true', ← Bool.not_eq_true, covers_iff]
    intro hother
    have hle := hfirst e (hsplit ▸ List.mem_append_left _ he) hother
    rw [directives] at hsplit
    rw [hsplit] at hsorted
    have hlt := (List.pairwise_append.mp hsorted).2.2 e he d List.mem_cons_self
    omega

/-- **The outermost directive is asked.** -/
theorem targetAt?_of_outermost {line : List Char} {position : Nat} {d : Directive}
    (h : Outermost line (min position line.length) d)
    (hargument : d.argument = .closed start argument) :
    targetAt? line position
      = targetOf? d.name start argument (min position line.length) := by
  simp only [targetAt?, find?_covers_iff.mpr h, Option.bind_eq_bind, Option.bind_some, hargument]

theorem targetAt?_of_not_reaches {line : List Char} {position : Nat}
    (h : ∀ d ∈ directives (stripComment line), ¬ Reaches (min position line.length) d) :
    targetAt? line position = none := by
  have hnone : (directives (stripComment line)).find? (covers (min position line.length))
      = none := by
    rw [List.find?_eq_none]
    intro d hd hcovers
    exact h d hd (covers_iff.mp hcovers)
  simp only [targetAt?, hnone, Option.bind_eq_bind, Option.bind_none]

theorem exists_outermost {line : List Char} {d : Directive}
    (hd : d ∈ directives (stripComment line)) (h : Reaches cursor d) :
    ∃ o, Outermost line cursor o := by
  have hfound : ((directives (stripComment line)).find? (covers cursor)).isSome = true :=
    List.find?_isSome.mpr ⟨d, hd, covers_iff.mpr h⟩
  obtain ⟨o, ho⟩ := Option.isSome_iff_exists.mp hfound
  exact ⟨o, find?_covers_iff.mp ho⟩

/-- The outermost directive is the innermost only if no other reaches over the
cursor. -/
theorem Innermost.eq_outermost_iff {line : List Char} {d o : Directive}
    (hd : Innermost line cursor d) (ho : Outermost line cursor o) :
    o = d ↔ ∀ e ∈ directives (stripComment line), Reaches cursor e → e = d := by
  constructor
  · rintro rfl e he hreaches
    -- it starts neither before the first nor after the last
    have hfirst := ho.first e he hreaches
    have hlast := hd.last e he hreaches
    have hstart : e.start = o.start := by omega
    have he' : Outermost line cursor e :=
      ⟨he, hreaches, fun e' hm hr => hstart ▸ ho.first e' hm hr⟩
    exact Option.some.inj
      ((find?_covers_iff.mpr he').symm.trans (find?_covers_iff.mpr ho))
  · intro h
    exact h o ho.mem ho.reaches

/-! ### The kinds of references -/

theorem ofName?_of_citesKeys {name : String} (h : citesKeys name = true) :
    IncludeKind.ofName? name = none := by
  unfold IncludeKind.ofName?
  split
  · exact absurd h (by decide)
  · exact absurd h (by decide)
  · exact absurd h (by decide)
  · rfl

theorem of_isReference {name : String} (h : isReference name = true) :
    IncludeKind.ofName? name = none ∧ citesKeys name = false := by
  have hall : ∀ n ∈ ["ref", "eqref", "pageref", "autoref", "cref", "Cref", "nameref", "vref"],
      IncludeKind.ofName? n = none ∧ citesKeys n = false := by decide
  exact hall name (of_decide_eq_true h)

theorem PartOf.mem_splitKeys (h : PartOf argument before part)
    (hkey : String.ofList (trim part) ≠ "") : String.ofList (trim part) ∈ splitKeys argument := by
  obtain ⟨xs, ys, hpieces, -⟩ := h.exists_splitOn
  rw [splitKeys, hpieces]
  refine List.mem_filter.mpr ⟨List.mem_map_of_mem ?_, decide_eq_true hkey⟩
  exact List.mem_append_right xs List.mem_cons_self

/-- What is cited is one of the keys of the argument, if it has any. -/
theorem exists_citedKey? (start cursor : Nat) (h : splitKeys argument ≠ []) :
    ∃ key ∈ splitKeys argument, citedKey? start argument cursor = some key := by
  by_cases hunder : ∃ before part, PartOf argument before part ∧
      Holds start cursor before part ∧ String.ofList (trim part) ≠ ""
  · obtain ⟨before, part, hpart, hholds, hkey⟩ := hunder
    exact ⟨_, hpart.mem_splitKeys hkey, citedKey?_of_holds hpart hholds hkey⟩
  · obtain ⟨key, more, hkeys⟩ := List.exists_cons_of_ne_nil h
    refine ⟨key, hkeys ▸ List.mem_cons_self, ?_⟩
    rw [citedKey?_of_not_holds, hkeys, List.head?_cons]
    intro before part hpart hholds
    by_contra hkey
    exact hunder ⟨before, part, hpart, hholds, hkey⟩

/-- **The outermost directive over the cursor answers.**  If it includes a file,
that is pointed at; if it refers to a label, that label, unless its argument is
blank.  If it cites, then the part under the cursor is meant, unless it is blank,
and otherwise the first key; so one of its keys is found if it has any.  If it is
another command, nothing is found, whatever stands inside of its argument; nor is
anything if no directive reaches over the cursor.

The directive that the cursor is innermost in is asked exactly if it is the only
one that reaches over the cursor. -/
theorem outermost_directive_answers (line : List Char) (position : Nat) :
    let cursor := min position line.length
    (∀ d start argument, Outermost line cursor d → d.argument = .closed start argument →
      let key := String.ofList (trim argument)
      ((IncludeKind.ofName? d.name).isSome = true →
        targetAt? line position = some (.inclusion key)) ∧
      (isReference d.name = true →
        targetAt? line position = if key = "" then none else some (.label key)) ∧
      (citesKeys d.name = true →
        (∀ before part, PartOf argument before part → Holds start cursor before part →
          String.ofList (trim part) ≠ "" →
          targetAt? line position = some (.citation (String.ofList (trim part)))) ∧
        ((∀ before part, PartOf argument before part → Holds start cursor before part →
          String.ofList (trim part) = "") →
          targetAt? line position = (splitKeys argument).head?.map .citation) ∧
        (splitKeys argument ≠ [] →
          ∃ cited ∈ splitKeys argument, targetAt? line position = some (.citation cited))) ∧
      ((IncludeKind.ofName? d.name).isSome = false → isReference d.name = false →
        citesKeys d.name = false → targetAt? line position = none)) ∧
    ((∀ d ∈ directives (stripComment line), ¬ Reaches cursor d) →
      targetAt? line position = none) ∧
    ∀ d, Innermost line cursor d → ∃ o, Outermost line cursor o ∧
      (o = d ↔ ∀ e ∈ directives (stripComment line), Reaches cursor e → e = d) := by
  intro cursor
  refine ⟨fun d start argument ho hargument => ?_, targetAt?_of_not_reaches, fun d hd => ?_⟩
  · intro key
    rw [targetAt?_of_outermost ho hargument, targetOf?]
    refine ⟨fun hinclude => ?_, fun hreference => ?_, fun hcites => ?_,
      fun hinclude hreference hcites => ?_⟩
    · rw [if_pos hinclude]
    · obtain ⟨hinclude, hcites⟩ := of_isReference hreference
      rw [hinclude, hcites, hreference]
      show (if (true && decide (key ≠ "")) = true then some (Target.label key) else none) = _
      by_cases hkey : key = "" <;> simp [hkey]
    · rw [ofName?_of_citesKeys hcites, if_neg (by decide), if_pos hcites]
      refine ⟨fun before part hpart hholds hkey => ?_, fun hnone => ?_, fun hkeys => ?_⟩
      · rw [citedKey?_of_holds hpart hholds hkey, Option.map_some]
      · rw [citedKey?_of_not_holds hnone]
      · obtain ⟨cited, hmem, hcited⟩ := exists_citedKey? start cursor hkeys
        exact ⟨cited, hmem, by rw [hcited, Option.map_some]⟩
    · simp [hinclude, hreference, hcites]
  · obtain ⟨o, ho⟩ := exists_outermost hd.mem hd.reaches
    exact ⟨o, ho, hd.eq_outermost_iff ho⟩

/-- A citation with an option and three keys, behind a character of two bytes and
before a comment. -/
def severalKeys : List Char :=
  "é \\cite[p.~3]\x7ba, b c ,d\x7d% \\emph\x7b\\ref\x7bx\x7d\x7d".toList

theorem several_outermost : Outermost severalKeys (min 19 severalKeys.length)
    ⟨2, "cite", .closed 14 "a, b c ,d".toList⟩ :=
  find?_covers_iff.mp (by decide)

theorem several_part : PartOf "a, b c ,d".toList "a,".toList " b c ".toList where
  text := ⟨",d".toList, by decide, .inr (by decide)⟩
  commaless := by decide
  first := .inr (by decide)

theorem outermost_directive_answers_several :
    Outermost severalKeys (min 19 severalKeys.length)
      ⟨2, "cite", .closed 14 "a, b c ,d".toList⟩ ∧
    citesKeys "cite" = true ∧
    PartOf "a, b c ,d".toList "a,".toList " b c ".toList ∧
    Holds 14 (min 19 severalKeys.length) "a,".toList " b c ".toList ∧
    targetAt? severalKeys 19 = some (.citation "b c") := by
  have hcites : citesKeys "cite" = true := by decide
  have hholds : Holds 14 (min 19 severalKeys.length) "a,".toList " b c ".toList :=
    ⟨by decide, by decide⟩
  obtain ⟨hanswers, -, -⟩ := outermost_directive_answers severalKeys 19
  obtain ⟨-, -, hcitation, -⟩ := hanswers _ 14 _ several_outermost rfl
  refine ⟨several_outermost, hcites, several_part, hholds, ?_⟩
  exact (hcitation hcites).1 _ _ several_part hholds (by decide)

/-- A citation inside of the argument of another command is not found, although
it is the innermost directive and the cursor is on its key. -/
theorem nested_citation_not_found :
    Innermost "\\emph\x7b\\cite\x7ba\x7d\x7d".toList 12 ⟨6, "cite", .closed 12 ['a']⟩ ∧
    citesKeys "cite" = true ∧ PartOf ['a'] [] ['a'] ∧ Holds 12 12 [] ['a'] ∧
    targetAt? "\\emph\x7b\\cite\x7ba\x7d\x7d".toList 12 = none := by
  have hfound : directives (stripComment "\\emph\x7b\\cite\x7ba\x7d\x7d".toList) =
      [⟨0, "emph", .closed 6 "\\cite{a}".toList⟩, ⟨6, "cite", .closed 12 ['a']⟩] := by
    decide
  refine ⟨⟨?_, ?_, ?_⟩, by decide, ?_, ⟨by decide, by decide⟩, by decide⟩
  · rw [hfound]
    exact List.mem_cons_of_mem _ List.mem_cons_self
  · exact ⟨12, ['a'], rfl, by decide, by decide⟩
  · intro e he _
    rw [hfound] at he
    rcases List.mem_pair.mp he with rfl | rfl
    · exact Nat.zero_le 6
    · exact Nat.le_refl 6
  · exact ⟨⟨[], rfl, .inl rfl⟩, by decide, .inl rfl⟩

end Cursor

end LatexIndex
