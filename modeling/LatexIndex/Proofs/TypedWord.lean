/-
LatexIndex/Proofs/TypedWord.lean

The word that is being typed.

What is completed hangs on the last directive left of the cursor, whose argument
is still open there.  Typing one more character lengthens the text that is read,
so the question is whether the directives found in the longer text still end in
that one.  They do: a command that something follows, the options behind it and an
open argument are read the same whatever is put behind them
(`directiveAt?_concat`), and a new directive would need a backslash at the end of
the text that was there (`exists_directive_of_concat`).  A comment would begin with
the new character, and the argument would end with it (`stripComment_concat`,
`braceBody_concat`).

The word is what the argument ends with: all of it, or what is behind its last
comma, without the blanks at its start.
-/
import LatexIndex.Cursor.Context
import LatexIndex.Proofs.Directives
import LatexIndex.Proofs.Markers

namespace LatexIndex

open Text Markup

/-! ### One more character -/

namespace Markup

variable {text before : List Char} {c : Char} {d e : Directive} {pos start depth : Nat}

/-- An open argument stays open unless a brace is typed. -/
theorem braceBody_concat (hc : c ≠ '}') (h : braceBody depth text = none) :
    braceBody depth (text ++ [c]) = none := by
  induction depth, text using braceBody.induct with
  | case1 depth =>
      by_cases hopen : c = '{'
      · rw [hopen]
        rfl
      · rw [List.nil_append, braceBody.eq_6 _ _ _ (fun _ _ _ => by simp) hopen hc]
        rfl
  | case2 depth x text ih =>
      rw [braceBody, Option.map_eq_none_iff] at h
      rw [List.cons_append, List.cons_append, braceBody, ih h]
      rfl
  | case3 depth text ih =>
      rw [braceBody, Option.map_eq_none_iff] at h
      rw [List.cons_append, braceBody, ih h]
      rfl
  | case4 text => simp [braceBody] at h
  | case5 text depth ih =>
      rw [braceBody, Option.map_eq_none_iff] at h
      rw [List.cons_append, braceBody, ih h]
      rfl
  | case6 depth x text hescape hopen hclose ih =>
      rw [braceBody.eq_6 _ _ _ hescape hopen hclose, Option.map_eq_none_iff] at h
      by_cases hx : x = '\\'
      · -- the last character was a backslash, and it takes the new one along
        obtain rfl : text = [] := by
          rcases text with - | ⟨y, text⟩
          · rfl
          · exact (hescape y text hx rfl).elim
        rw [hx]
        rfl
      · rw [List.cons_append, braceBody.eq_6 _ _ _ (fun _ _ heq => absurd heq hx) hopen hclose,
          ih h]
        rfl

theorem readArgument_concat (hc : c ≠ '}') (h : readArgument pos text = .unclosed start) :
    readArgument pos (text ++ [c]) = .unclosed start ∧ text ≠ [] ∧ start ≤ pos + text.length := by
  unfold readArgument at h
  split at h
  · next rest hoptions =>
      obtain ⟨options, rfl, hstop⟩ := afterOptions_stops hoptions
      split at h
      · cases h
      · next hbody =>
          obtain rfl := Argument.unclosed.inj h
          refine ⟨?_, by simp, by simp⟩
          have hconcat : options ++ '{' :: rest ++ [c] = options ++ '{' :: (rest ++ [c]) := by simp
          simp only [readArgument, hconcat, hstop, braceBody_concat hc hbody]
          congr 1
          simp only [List.length_append, List.length_cons, List.length_nil]
          omega
  · cases h

/-- **A directive with an open argument is read the same** when a character other
than the closing brace is put behind it. -/
theorem directiveAt?_concat (hc : c ≠ '}') (h : directiveAt? pos text = some d)
    (hd : d.argument = .unclosed start) :
    directiveAt? pos (text ++ [c]) = some d ∧ start ≤ pos + 1 + text.length := by
  rcases htake : takeCommand text with ⟨command, rest⟩
  rw [directiveAt?_eq, htake] at h
  split at h
  · next hletter =>
      obtain rfl := Option.some.inj h
      have hopen : readArgument (pos + 1 + command.length) rest = .unclosed start := hd
      obtain ⟨hread, hrest, hbound⟩ := readArgument_concat hc hopen
      obtain ⟨rfl, hstop⟩ := takeCommand_stops htake hrest
      have hne : command ++ rest ≠ [] := List.append_ne_nil_of_right_ne_nil command hrest
      have htake' := hstop (rest ++ [c]) (List.head?_append_of_ne_nil _ hrest)
      rw [← List.append_assoc] at htake'
      refine ⟨?_, ?_⟩
      · rw [directiveAt?_eq, List.head?_append_of_ne_nil _ hne, if_pos hletter, htake']
        simp only [hread, hopen]
      · rw [List.length_append]
        omega
  · cases h

/-- A directive begins with a backslash that something follows, so a character
begins none unless a backslash was there. -/
theorem exists_directive_of_concat (hlast : before.getLast? ≠ some '\\')
    (h : e ∈ directives (before ++ [c])) : ∃ e' ∈ directives before, e'.start = e.start := by
  obtain ⟨front, back, htext, he⟩ := mem_directivesFrom_iff.mp h
  rcases List.eq_nil_or_concat' back with rfl | ⟨init, x, rfl⟩
  · cases he
  · have hbefore : before = front ++ '\\' :: init := by
      rw [← List.cons_append, ← List.append_assoc] at htext
      exact (List.append_inj' htext rfl).1
    have hne : init ≠ [] := by
      rintro rfl
      rw [hbefore] at hlast
      simp at hlast
    have hstart := (start_of_directiveAt? he).1
    rw [directiveAt?_eq, List.head?_append_of_ne_nil _ hne] at he
    split at he
    · next hletter =>
        obtain ⟨e', he'⟩ : ∃ e', directiveAt? (0 + front.length) init = some e' :=
          ⟨_, by rw [directiveAt?_eq, if_pos hletter]⟩
        refine ⟨e', mem_directivesFrom_iff.mpr ⟨front, init, hbefore, he'⟩, ?_⟩
        rw [hstart, (start_of_directiveAt? he').1]
    · cases he

/-- The last directive is the one that starts last. -/
theorem getLast?_directives_iff :
    (directives text).getLast? = some d ↔
      d ∈ directives text ∧ ∀ e ∈ directives text, e.start ≤ d.start := by
  have hsorted := pairwise_directivesFrom 0 text
  rw [← directives] at hsorted
  constructor
  · intro h
    obtain ⟨init, hinit⟩ := List.getLast?_eq_some_iff.mp h
    rw [hinit] at hsorted ⊢
    refine ⟨List.mem_append_right _ (List.mem_singleton_self d), fun e he => ?_⟩
    rcases List.mem_append.mp he with he | he
    · exact Nat.le_of_lt ((List.pairwise_append.mp hsorted).2.2 e he d (List.mem_singleton_self d))
    · rw [List.mem_singleton.mp he]
  · rintro ⟨hd, hall⟩
    obtain ⟨init, more, hsplit⟩ := List.append_of_mem hd
    rcases more with - | ⟨e, more⟩
    · rw [hsplit, List.getLast?_concat]
    · have hlt : d.start < e.start := by
        rw [hsplit] at hsorted
        exact (List.pairwise_cons.mp (List.pairwise_append.mp hsorted).2.1).1 e List.mem_cons_self
      have hle := hall e (by rw [hsplit]; simp)
      omega

/-- **The last directive stays the last** while its argument is open. -/
theorem getLast?_directives_concat (hc : c ≠ '}') (hlast : before.getLast? ≠ some '\\')
    (h : (directives before).getLast? = some d) (hd : d.argument = .unclosed start) :
    (directives (before ++ [c])).getLast? = some d ∧ start ≤ before.length := by
  obtain ⟨hmem, hall⟩ := getLast?_directives_iff.mp h
  obtain ⟨front, back, rfl, hat⟩ := mem_directivesFrom_iff.mp hmem
  obtain ⟨hconcat, hbound⟩ := directiveAt?_concat hc hat hd
  refine ⟨getLast?_directives_iff.mpr ⟨?_, fun e he => ?_⟩, ?_⟩
  · exact mem_directivesFrom_iff.mpr ⟨front, back ++ [c], by simp, hconcat⟩
  · obtain ⟨e', he', hstart⟩ := exists_directive_of_concat hlast he
    exact hstart ▸ hall e' he'
  · rw [List.length_append, List.length_cons]
    omega

end Markup

/-! ### The word -/

namespace Cursor

variable {text before line : List Char} {c : Char} {d : Directive} {t : Typing}
  {start position : Nat} {context : Context}

theorem afterLastComma_ends (text : List Char) : afterLastComma text <:+ text := by
  rw [afterLastComma, ← List.reverse_prefix, List.reverse_reverse]
  exact List.takeWhile_prefix _

theorem comma_notMem_afterLastComma (text : List Char) : ',' ∉ afterLastComma text := by
  intro hmem
  have hcomma := List.all_eq_true.mp List.all_takeWhile _ (List.mem_reverse.mp hmem)
  exact absurd hcomma (by decide)

theorem afterLastComma_concat (hc : c ≠ ',') (text : List Char) :
    afterLastComma (text ++ [c]) = afterLastComma text ++ [c] := by
  rw [afterLastComma, List.reverse_append, List.reverse_singleton, List.singleton_append,
    List.takeWhile_cons_of_pos (by simpa using hc), List.reverse_cons]
  rfl

theorem trimStart_concat (hc : isBlank c = false) (text : List Char) :
    trimStart (text ++ [c]) = trimStart text ++ [c] := by
  have hsingle : [c].dropWhile isBlank = [c] := List.dropWhile_cons_of_neg (by simp [hc])
  rw [trimStart, trimStart, List.dropWhile_append]
  split
  · next hnil => rw [hsingle, List.isEmpty_iff.mp hnil, List.nil_append]
  · rfl

/-- What of an open argument is the word. -/
def wordOf (name : String) (context : Context) (argument : List Char) : List Char :=
  trimStart (if takesList name context then afterLastComma argument else argument)

theorem wordOf_ends (name : String) (context : Context) (argument : List Char) :
    wordOf name context argument <:+ argument := by
  refine (List.dropWhile_suffix isBlank).trans ?_
  split
  · exact afterLastComma_ends argument
  · exact List.suffix_rfl

theorem wordOf_concat (hblank : isBlank c = false) (hcomma : c ≠ ',') (name : String)
    (context : Context) (argument : List Char) :
    wordOf name context (argument ++ [c]) = wordOf name context argument ++ [c] := by
  rw [wordOf, wordOf, ← trimStart_concat hblank]
  split
  · rw [afterLastComma_concat hcomma]
  · rfl

theorem comma_notMem_wordOf {name : String} (h : takesList name context = true)
    (argument : List Char) : ',' ∉ wordOf name context argument := by
  rw [wordOf, if_pos h]
  exact fun hmem => comma_notMem_afterLastComma argument
    ((List.dropWhile_suffix isBlank).subset hmem)

theorem not_blank_of_mem_head?_wordOf {name : String} {argument : List Char}
    (h : c ∈ (wordOf name context argument).head?) : isBlank c = false := by
  rw [wordOf] at h
  have hnot := List.head?_dropWhile_not isBlank
    (if takesList name context then afterLastComma argument else argument)
  rw [← trimStart, Option.mem_def.mp h] at hnot
  exact hnot

/-- **What is being typed**: outside of a comment, in the open argument of the last
directive, the word that its command takes. -/
theorem typingAfter?_eq_some_iff :
    typingAfter? before = some t ↔
      stripComment before = before ∧ ∃ d start context,
        (directives before).getLast? = some d ∧ d.argument = .unclosed start ∧
        Context.ofName? d.name = some context ∧
        t = ⟨context, String.ofList (wordOf d.name context (before.drop start)),
          before.length - (wordOf d.name context (before.drop start)).length⟩ := by
  rw [typingAfter?]
  by_cases hcomment : stripComment before = before
  · rcases hlast : (directives before).getLast? with - | d
    · simp [hcomment]
    · rcases hargument : d.argument with - | start | ⟨start, argument⟩
      · simp [hcomment, hargument]
      · rcases hcontext : Context.ofName? d.name with - | context
        · simp [hcomment, hargument, hcontext]
        · simp only [hcomment, hargument, hcontext, ne_eq, not_true_eq_false, if_false,
            Option.bind_eq_bind, Option.bind_some, Option.pure_def, Option.some.injEq, true_and]
          constructor
          · rintro rfl
            exact ⟨d, start, context, rfl, hargument, hcontext, rfl⟩
          · rintro ⟨_, start', context', rfl, hargument', hcontext', rfl⟩
            obtain rfl := Argument.unclosed.inj (hargument.symm.trans hargument')
            obtain rfl := Option.some.inj (hcontext.symm.trans hcontext')
            rfl
      · simp [hcomment, hargument]
  · simp [hcomment]

/-- Typing a character that neither begins a comment nor closes the argument nor
ends the word lengthens the word. -/
theorem typingAfter?_concat (hlast : before.getLast? ≠ some '\\') (hblank : isBlank c = false)
    (hc : c ∉ [',', '\\', '}', '%']) (h : typingAfter? before = some t) :
    typingAfter? (before ++ [c]) = some { t with word := t.word.push c } := by
  simp only [List.mem_cons, List.not_mem_nil, or_false, not_or] at hc
  obtain ⟨hcomma, -, hbrace, hpercent⟩ := hc
  obtain ⟨hcomment, d, start, context, hdirective, hopen, hcontext, rfl⟩ :=
    typingAfter?_eq_some_iff.mp h
  obtain ⟨hdirective', hbound⟩ := getLast?_directives_concat hbrace hlast hdirective hopen
  refine typingAfter?_eq_some_iff.mpr ⟨stripComment_concat hpercent hcomment, d, start, context,
    hdirective', hopen, hcontext, ?_⟩
  rw [List.drop_append_of_le_length hbound, wordOf_concat hblank hcomma]
  simp only [Typing.mk.injEq, true_and]
  refine ⟨?_, ?_⟩
  · rw [← String.toList_inj, String.toList_push, String.toList_ofList, String.toList_ofList]
  · rw [List.length_append, List.length_append, List.length_singleton, Nat.add_sub_add_right]

/-- **The word that is being typed.**  It ends at the cursor: it is what the line
has between its start and the cursor.  It does not begin with a blank, and where
the argument is a list it holds no comma.

Unless a backslash stands directly left of the cursor, typing a character at the
cursor that is no blank, comma, backslash, closing brace or `%` lengthens the word
by that character, and nothing else changes. -/
theorem typing_tracks_word (h : typingAt? line position = some t) :
    let cursor := min position line.length
    t.start + t.word.length = cursor ∧
    t.word.toList = (line.take cursor).drop t.start ∧
    (∀ c ∈ t.word.toList.head?, isBlank c = false) ∧
    (t.context = .citation ∨ t.context = .labelReference ∨
      (∃ d, (directives (line.take cursor)).getLast? = some d ∧ d.name = "includeonly") →
      ',' ∉ t.word.toList) ∧
    ((line.take cursor).getLast? ≠ some '\\' → ∀ c, isBlank c = false →
      c ∉ [',', '\\', '}', '%'] →
      typingAt? (line.take cursor ++ c :: line.drop cursor) (cursor + 1)
        = some { t with word := t.word.push c }) := by
  intro cursor
  have htake : line.take position = line.take cursor := by
    rw [List.take_eq_take_min]
  have hlength : (line.take cursor).length = cursor := by
    rw [List.length_take]
    exact Nat.min_eq_left (Nat.min_le_right _ _)
  rw [typingAt?, htake] at h
  obtain ⟨-, d, start, context, hdirective, -, -, rfl⟩ := typingAfter?_eq_some_iff.mp h
  have hends : wordOf d.name context ((line.take cursor).drop start) <:+ line.take cursor :=
    (wordOf_ends _ _ _).trans (List.drop_suffix _ _)
  refine ⟨?_, ?_, ?_, ?_, ?_⟩
  · have hle := hends.length_le
    simp only [← String.length_toList, String.toList_ofList]
    omega
  · rw [String.toList_ofList]
    exact List.suffix_iff_eq_drop.mp hends
  · intro c hc
    rw [String.toList_ofList] at hc
    exact not_blank_of_mem_head?_wordOf hc
  · intro hlist
    have htakes : takesList d.name context = true := by
      rw [takesList, Bool.or_eq_true, Bool.or_eq_true, decide_eq_true_iff, decide_eq_true_iff,
        decide_eq_true_iff]
      rcases hlist with hcitation | hreference | ⟨d', hdirective', honly⟩
      · exact .inl (.inr hcitation)
      · exact .inr hreference
      · obtain rfl := Option.some.inj (hdirective.symm.trans hdirective')
        exact .inl (.inl honly)
    rw [String.toList_ofList]
    exact comma_notMem_wordOf htakes _
  · intro hlast c hblank hc
    have htyped : (line.take cursor ++ c :: line.drop cursor).take (cursor + 1)
        = line.take cursor ++ [c] := by
      rw [List.append_cons, List.take_left']
      rw [List.length_append, hlength, List.length_singleton]
    rw [typingAt?, htyped]
    exact typingAfter?_concat hlast hblank hc h

/-- A citation whose second key is being typed, behind a blank that is none of
ASCII. -/
def halfTyped : List Char :=
  "é \\citep[see]\x7ba,\u00a0kn\x7d x".toList

theorem typing_tracks_word_cited :
    typingAt? halfTyped 19 = some ⟨.citation, "kn", 17⟩ ∧
    17 + "kn".length = min 19 halfTyped.length ∧
    "kn".toList = (halfTyped.take (min 19 halfTyped.length)).drop 17 ∧
    ',' ∉ "kn".toList ∧
    (halfTyped.take (min 19 halfTyped.length)).getLast? ≠ some '\\' ∧
    isBlank 'u' = false ∧ 'u' ∉ [',', '\\', '}', '%'] ∧
    typingAt? (halfTyped.take (min 19 halfTyped.length) ++
        'u' :: halfTyped.drop (min 19 halfTyped.length)) (min 19 halfTyped.length + 1)
      = some ⟨.citation, "kn".push 'u', 17⟩ := by
  have htyping : typingAt? halfTyped 19 = some ⟨.citation, "kn", 17⟩ := by decide
  have hlast : (halfTyped.take (min 19 halfTyped.length)).getLast? ≠ some '\\' := by decide
  have hblank : isBlank 'u' = false := by decide
  have hplain : 'u' ∉ [',', '\\', '}', '%'] := by decide
  obtain ⟨hends, hword, -, hcomma, htypes⟩ := typing_tracks_word htyping
  exact ⟨htyping, hends, hword, hcomma (.inl rfl), hlast, hblank, hplain,
    htypes hlast 'u' hblank hplain⟩

end Cursor

end LatexIndex
