/-
LatexIndex/Proofs/Escapes.lean

Where the comment of a line begins.

There are two ways to tell.  One looks back from a `%` and counts the
backslashes directly before it: an odd number of them escapes it
(`escapesNext`).  The other reads from the left and lets every backslash take
the next character with it (`readToComment`), so that it never looks back and
never counts.

Cutting off a comment stands between the two.  It reads from the left, but
the count it carries is always that of the backslashes at the end of what has
been read (`stripCommentFrom_cons`), and of the count only matters whether it
is odd: then the next character is taken, whatever it is
(`stripCommentFrom_eq`).  What other modules ask of a comment is drawn from
where it is cut off (`stripCommentFrom_cut`) and from reading on after a text
that has none (`stripCommentFrom_append`).
-/
import LatexIndex.Markup.Comment

namespace LatexIndex.Markup

variable {before text front : List Char} {c : Char}

/-! ### Reading from the left -/

/-- What is kept of a line by reading it from the left: a backslash takes the
next character with it, and the first `%` that is not taken ends the line. -/
def readToComment : List Char → List Char
  | '\\' :: c :: rest => '\\' :: c :: readToComment rest
  | '%' :: _ => []
  | c :: rest => c :: readToComment rest
  | [] => []

/-- What is kept after a backslash, which takes the next character. -/
def readTaken : List Char → List Char
  | [] => []
  | c :: rest => c :: readToComment rest

theorem readToComment_backslash (rest : List Char) :
    readToComment ('\\' :: rest) = '\\' :: readTaken rest := by
  cases rest with
  | nil => rfl
  | cons c rest => rw [readToComment, readTaken]

theorem readToComment_plain (hbackslash : c ≠ '\\') (hpercent : c ≠ '%') (rest : List Char) :
    readToComment (c :: rest) = c :: readToComment rest := by
  rw [readToComment]
  · rintro c' rest' rfl
    exact absurd rfl hbackslash
  · rintro rfl
    exact absurd rfl hpercent

/-- **Counting backslashes is reading from the left.**  With an even number of
them before it a text is read from its beginning, and with an odd number its
first character is taken. -/
theorem stripCommentFrom_eq (backslashes : Nat) (text : List Char) :
    stripCommentFrom backslashes text =
      if backslashes % 2 = 0 then readToComment text else readTaken text := by
  induction text generalizing backslashes with
  | nil => rw [stripCommentFrom, readToComment, readTaken, ite_self]
  | cons c rest ih =>
      rw [stripCommentFrom, ih]
      by_cases heven : backslashes % 2 = 0
      · rw [if_pos heven]
        by_cases hpercent : c = '%'
        · simp [hpercent, heven, readToComment]
        by_cases hbackslash : c = '\\'
        · have hodd : ¬ (backslashes + 1) % 2 = 0 := by omega
          simp [hbackslash, hodd, readToComment_backslash]
        · simp [hpercent, hbackslash, readToComment_plain]
      · -- the next count is even, whether the character taken is a backslash or not
        have hnext : (if c == '\\' then backslashes + 1 else 0) % 2 = 0 := by
          split <;> omega
        rw [if_neg heven, if_pos hnext, readTaken]
        simp [heven]

/-! ### Looking back -/

/-- How many backslashes stand at the end of a text. -/
def backslashesAtEnd (text : List Char) : Nat :=
  (text.reverse.takeWhile (· == '\\')).length

/-- Whether a text escapes the character after it. -/
def escapesNext (text : List Char) : Bool :=
  backslashesAtEnd text % 2 == 1

theorem backslashesAtEnd_concat (text : List Char) (c : Char) :
    backslashesAtEnd (text ++ [c]) = if c == '\\' then backslashesAtEnd text + 1 else 0 := by
  rw [backslashesAtEnd, List.reverse_concat, List.takeWhile_cons]
  split
  · rfl
  · rfl

theorem backslashesAtEnd_of_getLast? (h : text.getLast? ≠ some '\\') :
    backslashesAtEnd text = 0 := by
  rcases List.eq_nil_or_concat text with rfl | ⟨init, c, rfl⟩
  · rfl
  · rw [List.concat_eq_append] at h ⊢
    rw [backslashesAtEnd_concat, if_neg]
    simpa using h

/-- One character is read: it starts the comment or belongs to the text that
escapes the next one. -/
theorem stripCommentFrom_cons (before : List Char) (c : Char) (rest : List Char) :
    stripCommentFrom (backslashesAtEnd before) (c :: rest) =
      if c = '%' ∧ escapesNext before = false then []
      else c :: stripCommentFrom (backslashesAtEnd (before ++ [c])) rest := by
  rw [stripCommentFrom, backslashesAtEnd_concat]
  simp [escapesNext]

/-- **What is cut off starts at the first `%` that is not escaped.**  Every `%`
that is kept is escaped by what stands before it; and if anything is cut off,
then from a `%` on that is not. -/
theorem stripCommentFrom_cut (before text : List Char) :
    let kept := stripCommentFrom (backslashesAtEnd before) text
    (∀ front back, kept = front ++ '%' :: back → escapesNext (before ++ front) = true) ∧
    (kept = text ∨
      ∃ comment, text = kept ++ '%' :: comment ∧ escapesNext (before ++ kept) = false) := by
  -- on the text that is still to be read; what has been read goes over into `before`
  induction text generalizing before with
  | nil => exact ⟨fun front back h => absurd h (by simp [stripCommentFrom]), .inl rfl⟩
  | cons c rest ih =>
      obtain ⟨hkept, hcut⟩ := ih (before ++ [c])
      rw [stripCommentFrom_cons]
      by_cases hstart : c = '%' ∧ escapesNext before = false
      · rw [if_pos hstart]
        refine ⟨fun front back h => absurd h (by simp), .inr ⟨rest, ?_, ?_⟩⟩
        · rw [hstart.1, List.nil_append]
        · rw [List.append_nil]
          exact hstart.2
      · rw [if_neg hstart]
        refine ⟨?_, ?_⟩
        · intro front back h
          cases front with
          | nil =>
              -- the `%` is this character, which was kept because it is escaped
              obtain ⟨rfl, -⟩ := List.cons.inj h
              rw [List.append_nil]
              exact eq_true_of_ne_false fun hnot => hstart ⟨rfl, hnot⟩
          | cons d front =>
              obtain ⟨rfl, htail⟩ := List.cons.inj h
              simpa using hkept front back htail
        · rcases hcut with hall | ⟨comment, hrest, hnot⟩
          · exact .inl (congrArg _ hall)
          · exact .inr ⟨comment, congrArg _ hrest, by simpa using hnot⟩

/-- A text of which nothing is cut off leaves the rest to be read after it. -/
theorem stripCommentFrom_append (h : stripCommentFrom (backslashesAtEnd before) front = front)
    (rest : List Char) :
    stripCommentFrom (backslashesAtEnd before) (front ++ rest) =
      front ++ stripCommentFrom (backslashesAtEnd (before ++ front)) rest := by
  induction front generalizing before with
  | nil => rw [List.nil_append, List.nil_append, List.append_nil]
  | cons c front ih =>
      rw [stripCommentFrom_cons] at h
      rw [List.cons_append, stripCommentFrom_cons]
      by_cases hstart : c = '%' ∧ escapesNext before = false
      · rw [if_pos hstart] at h
        cases h
      · rw [if_neg hstart] at h ⊢
        rw [ih (List.cons.inj h).2, List.append_assoc]
        rfl

/-! ### Whole lines -/

theorem stripComment_begins (line : List Char) : stripComment line <+: line := by
  obtain ⟨-, hwhole | ⟨comment, hline, -⟩⟩ := stripCommentFrom_cut [] line
  · exact ⟨[], (List.append_nil _).trans hwhole⟩
  · exact ⟨'%' :: comment, hline.symm⟩

theorem length_stripComment_le (line : List Char) : (stripComment line).length ≤ line.length :=
  (stripComment_begins line).length_le

/-- The comment of a line that is cut starts where it started. -/
theorem stripComment_take (n : Nat) (line : List Char) :
    stripComment (line.take n) = (stripComment line).take n := by
  suffices h : ∀ backslashes, stripCommentFrom backslashes (line.take n)
      = (stripCommentFrom backslashes line).take n from h 0
  induction line generalizing n with
  | nil => simp [stripCommentFrom]
  | cons c rest ih =>
      intro backslashes
      cases n with
      | zero => simp [stripCommentFrom]
      | succ n =>
          rw [List.take_succ_cons, stripCommentFrom, stripCommentFrom]
          split
          · rfl
          · rw [ih, List.take_succ_cons]

theorem stripComment_idem (line : List Char) :
    stripComment (stripComment line) = stripComment line := by
  have hbegins := List.prefix_iff_eq_take.mp (stripComment_begins line)
  calc stripComment (stripComment line)
      = stripComment (line.take (stripComment line).length) := by rw [← hbegins]
    _ = (stripComment line).take (stripComment line).length := stripComment_take _ line
    _ = stripComment line := List.take_length

theorem stripComment_append (h : stripComment front = front) (rest : List Char) :
    stripComment (front ++ rest) = front ++ stripCommentFrom (backslashesAtEnd front) rest :=
  @stripCommentFrom_append [] front h rest

theorem stripComment_concat (hc : c ≠ '%') (h : stripComment before = before) :
    stripComment (before ++ [c]) = before ++ [c] := by
  rw [stripComment_append h, stripCommentFrom_cons, if_neg fun hstart => hc hstart.1,
    stripCommentFrom]

/-- Where the comment starts does not depend on what it says. -/
theorem stripComment_replace {comment : List Char}
    (h : stripComment (front ++ '%' :: comment) = front) (other : List Char) :
    stripComment (front ++ '%' :: other) = front := by
  have hwhole : stripComment front = front :=
    calc stripComment front
        = stripComment (stripComment (front ++ '%' :: comment)) := by rw [h]
      _ = stripComment (front ++ '%' :: comment) := stripComment_idem _
      _ = front := h
  rw [stripComment_append hwhole, stripCommentFrom_cons] at h ⊢
  by_cases hstart : '%' = '%' ∧ escapesNext front = false
  · rw [if_pos hstart, List.append_nil]
  · rw [if_neg hstart] at h
    simp at h

/-- **A line is kept up to the first `%` that no backslash takes.**  Cutting off
its comment is reading it from the left, where every backslash takes the next
character with it.  So a second cut changes nothing; looking back, every `%`
that is kept is escaped and the one that starts the comment is not; and a line
that is kept whole and does not end in a backslash leaves what is written after
it to be cut by itself. -/
theorem comment_cut_as_read (line rest : List Char) :
    stripComment line = readToComment line ∧
    stripComment (stripComment line) = stripComment line ∧
    (∀ front back, stripComment line = front ++ '%' :: back → escapesNext front = true) ∧
    (stripComment line = line ∨
      ∃ comment, line = stripComment line ++ '%' :: comment ∧
        escapesNext (stripComment line) = false) ∧
    (stripComment line = line → line.getLast? ≠ some '\\' →
      stripComment (line ++ rest) = line ++ stripComment rest) := by
  obtain ⟨hkept, hcut⟩ := stripCommentFrom_cut [] line
  refine ⟨stripCommentFrom_eq 0 line, stripComment_idem line, hkept, hcut, ?_⟩
  intro hwhole hlast
  rw [stripComment_append hwhole, backslashesAtEnd_of_getLast? hlast, ← stripComment]

theorem comment_cut_as_read_after_escapes :
    stripComment "\\\\\\%a".toList = "\\\\\\%a".toList ∧
    "\\\\\\%a".toList.getLast? ≠ some '\\' ∧
    stripComment ("\\\\\\%a".toList ++ "\\\\%b".toList) = "\\\\\\%a\\\\".toList := by
  have hwhole : stripComment "\\\\\\%a".toList = "\\\\\\%a".toList := by decide
  have hlast : "\\\\\\%a".toList.getLast? ≠ some '\\' := by decide
  obtain ⟨-, -, -, -, happend⟩ :=
    comment_cut_as_read "\\\\\\%a".toList "\\\\%b".toList
  refine ⟨hwhole, hlast, (happend hwhole hlast).trans ?_⟩
  decide

end LatexIndex.Markup
