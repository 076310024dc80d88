/-
LatexIndex/Proofs/Delimiters.lean

What the readers of a bibliography go over without stopping.

Three readers look at one text: the search for the end of a body counts
braces and lets a backslash take along the character after it, the cutting
into fields counts braces and quotes, and a value is trimmed and cleaned.
They stay in step on a text whose braces are balanced and that has no
backslash directly before a brace.  For the first two readers this is said as
going from one state to another over a text, whatever follows it (`Goes`,
`Whole`), and such steps can be put together.
-/
import LatexIndex.Bib.Entry
import Mathlib.Data.List.Chain
import Mathlib.Data.List.Induction

namespace LatexIndex

/-! ### Blanks around a text -/

namespace Text

variable {left text right : List Char} {stop : Char → Bool}

theorem trimStart_append (hleft : ∀ c ∈ left, isBlank c = true) :
    trimStart (left ++ text) = trimStart text :=
  List.dropWhile_append_of_pos hleft

theorem trimEnd_append (hright : ∀ c ∈ right, isBlank c = true) :
    trimEnd (text ++ right) = trimEnd text := by
  rw [trimEnd, List.reverse_append, List.dropWhile_append_of_pos, trimEnd]
  exact fun c hc => hright c (List.mem_reverse.mp hc)

/-- A trimmed text has no blanks at its start and none at its end. -/
theorem trim_eq_self (h : trim text = text) : trimStart text = text ∧ trimEnd text = text := by
  have hstart : trimStart text = text := by
    refine (List.dropWhile_suffix _).eq_of_length_le ?_
    calc text.length = (trim text).length := by rw [h]
      _ ≤ (trimStart text).length := by
        rw [trim, trimEnd, List.length_reverse]
        exact Nat.le_trans (List.dropWhile_suffix _).length_le (Nat.le_of_eq List.length_reverse)
  exact ⟨hstart, by rwa [trim, hstart] at h⟩

theorem trim_of_blankless (h : ∀ c ∈ text, isBlank c = false) : trim text = text := by
  have hself : ∀ cs : List Char, (∀ c ∈ cs, isBlank c = false) → cs.dropWhile isBlank = cs := by
    intro cs hcs
    rcases cs with - | ⟨c, cs⟩
    · rfl
    · exact List.dropWhile_cons_of_neg (by simp [hcs c List.mem_cons_self])
  rw [trim, trimStart, hself text h, trimEnd, hself text.reverse, List.reverse_reverse]
  exact fun c hc => h c (List.mem_reverse.mp hc)

/-- Blanks around a trimmed text are trimmed away. -/
theorem trim_between (hleft : ∀ c ∈ left, isBlank c = true)
    (hright : ∀ c ∈ right, isBlank c = true) (h : trim text = text) :
    trim (left ++ text ++ right) = text := by
  obtain ⟨hstart, hend⟩ := trim_eq_self h
  rcases text with - | ⟨c, text⟩
  · rw [List.append_nil, trim, trimStart_append hleft, ← List.append_nil right,
      trimStart_append hright]
    rfl
  · have hc : ¬ isBlank c = true := by
      intro hc
      rw [trimStart, List.dropWhile_cons_of_pos hc] at hstart
      have := (List.dropWhile_suffix (l := text) isBlank).length_le
      rw [hstart] at this
      exact Nat.not_succ_le_self _ this
    rw [trim, List.append_assoc, trimStart_append hleft, List.cons_append, trimStart,
      List.dropWhile_cons_of_neg hc, ← List.cons_append, trimEnd_append hright, hend]

theorem wordsFrom_blank {word : List Char} (hright : ∀ c ∈ right, isBlank c = true) :
    wordsFrom word right = wordsFrom word [] := by
  induction right generalizing word with
  | nil => rfl
  | cons c right ih =>
      obtain ⟨hc, hright⟩ := List.forall_mem_cons.mp hright
      conv_lhs => rw [wordsFrom, if_pos hc, ih hright]
      rfl

theorem wordsFrom_append {word : List Char} (hright : ∀ c ∈ right, isBlank c = true) :
    wordsFrom word (text ++ right) = wordsFrom word text := by
  induction text generalizing word with
  | nil => exact wordsFrom_blank hright
  | cons c text ih =>
      rw [List.cons_append, wordsFrom, wordsFrom]
      split
      · rw [ih]
      · exact ih

/-- Blanks around a text are in none of its words. -/
theorem words_between (hleft : ∀ c ∈ left, isBlank c = true)
    (hright : ∀ c ∈ right, isBlank c = true) : words (left ++ text ++ right) = words text := by
  rw [words, wordsFrom_append hright]
  induction left with
  | nil => rfl
  | cons c left ih =>
      obtain ⟨hc, hleft⟩ := List.forall_mem_cons.mp hleft
      rw [List.cons_append, wordsFrom, if_pos hc]
      exact ih hleft

/-- Taking characters of a kind stops where the first of another kind
follows. -/
theorem span_append (htext : ∀ c ∈ text, stop c = true)
    (hright : ∀ c ∈ right.head?, stop c = false) :
    (text ++ right).takeWhile stop = text ∧ (text ++ right).dropWhile stop = right := by
  rw [List.takeWhile_append_of_pos htext, List.dropWhile_append_of_pos htext]
  rcases right with - | ⟨c, right⟩
  · exact ⟨List.append_nil text, rfl⟩
  · have hc : ¬ stop c = true := by simp [hright c rfl]
    rw [List.takeWhile_cons_of_neg hc, List.dropWhile_cons_of_neg hc, List.append_nil]
    exact ⟨rfl, rfl⟩

theorem cutAt_append {c : Char} (htext : ∀ d ∈ text, stop d = false) (hc : stop c = true) :
    cutAt stop (text ++ c :: right) = some (text, right) := by
  induction text with
  | nil => rw [List.nil_append, cutAt, if_pos hc]
  | cons d text ih =>
      obtain ⟨hd, htext⟩ := List.forall_mem_cons.mp htext
      rw [List.cons_append, cutAt, hd, ih htext]
      rfl

theorem cutAt_eq_none (htext : ∀ d ∈ text, stop d = false) : cutAt stop text = none := by
  induction text with
  | nil => rfl
  | cons d text ih =>
      obtain ⟨hd, htext⟩ := List.forall_mem_cons.mp htext
      rw [cutAt, hd, ih htext]
      rfl

end Text

namespace Bib

variable {text text' : List Char} {depth depth' depth'' : Nat} {quoted quoted' quoted'' : Bool}
  {c : Char}

/-! ### Braces and backslashes -/

/-- How many braces are open after a character. -/
def depthStep (depth : Nat) (c : Char) : Nat :=
  if c == '{' then depth + 1 else if c == '}' then depth - 1 else depth

/-- How many braces are open after a text when `depth` were before it; none if
one is closed that was not opened. -/
def depthAfter? (depth : Nat) : List Char → Option Nat
  | [] => some depth
  | c :: rest => if c = '}' ∧ depth = 0 then none else depthAfter? (depthStep depth c) rest

theorem depthStep_of_ne (hopen : c ≠ '{') (hclose : c ≠ '}') : depthStep depth c = depth := by
  simp [depthStep, hopen, hclose]

theorem depthStep_succ (h : ¬ (c = '}' ∧ depth = 0)) :
    depthStep (depth + 1) c = depthStep depth c + 1 := by
  unfold depthStep
  split
  · rfl
  · split
    · next hclose =>
        have hdepth : depth ≠ 0 := fun hdepth => h ⟨by simpa using hclose, hdepth⟩
        omega
    · rfl

theorem depthAfter?_cons_eq_some : depthAfter? depth (c :: text) = some depth' ↔
    ¬ (c = '}' ∧ depth = 0) ∧ depthAfter? (depthStep depth c) text = some depth' := by
  rw [depthAfter?]
  split
  · next h => simp [h]
  · next h => simp [h]

theorem depthAfter?_cons_of_ne (hopen : c ≠ '{') (hclose : c ≠ '}') :
    depthAfter? depth (c :: text) = depthAfter? depth text := by
  rw [depthAfter?, if_neg fun h => hclose h.1, depthStep_of_ne hopen hclose]

theorem depthAfter?_of_braceless (h : ∀ c ∈ text, c ≠ '{' ∧ c ≠ '}') :
    depthAfter? depth text = some depth := by
  induction text with
  | nil => rfl
  | cons c text ih =>
      obtain ⟨⟨hopen, hclose⟩, htext⟩ := List.forall_mem_cons.mp h
      rw [depthAfter?_cons_of_ne hopen hclose, ih htext]

theorem depthAfter?_append (depth : Nat) (text text' : List Char) :
    depthAfter? depth (text ++ text') = (depthAfter? depth text).bind (depthAfter? · text') := by
  induction text generalizing depth with
  | nil => rfl
  | cons c text ih =>
      rw [List.cons_append, depthAfter?, depthAfter?]
      split
      · rfl
      · exact ih (depthStep depth c)

/-- Braces around a text do not change what it does. -/
theorem depthAfter?_succ (h : depthAfter? depth text = some depth') :
    depthAfter? (depth + 1) text = some (depth' + 1) := by
  induction text generalizing depth with
  | nil =>
      obtain rfl := Option.some.inj h
      rfl
  | cons c text ih =>
      obtain ⟨hc, htext⟩ := depthAfter?_cons_eq_some.mp h
      refine depthAfter?_cons_eq_some.mpr ⟨fun hzero => Nat.succ_ne_zero depth hzero.2, ?_⟩
      rw [depthStep_succ hc]
      exact ih htext

/-- No backslash stands directly before a brace. -/
def Unescaped (text : List Char) : Prop :=
  text.IsChain fun a b => a = '\\' → b ≠ '{' ∧ b ≠ '}'

instance : Decidable (Unescaped text) :=
  inferInstanceAs (Decidable (List.IsChain _ text))

theorem unescaped_of_braceless (h : ∀ c ∈ text, c ≠ '{' ∧ c ≠ '}') : Unescaped text := by
  have hpairwise : text.Pairwise fun a b => a = '\\' → b ≠ '{' ∧ b ≠ '}' :=
    List.pairwise_of_forall_mem_list fun _ _ b hb _ => h b hb
  exact hpairwise.isChain

theorem Unescaped.concat (h : Unescaped text) (hopen : c ≠ '{') (hclose : c ≠ '}') :
    Unescaped (text ++ [c]) := by
  refine List.isChain_append.mpr ⟨h, List.isChain_singleton c, fun _ _ b hb _ => ?_⟩
  obtain rfl := Option.some.inj hb
  exact ⟨hopen, hclose⟩

/-- Whether a text ends in a backslash that takes along what follows. -/
def hangs : List Char → Bool
  | [] => false
  | ['\\'] => true
  | '\\' :: _ :: rest => hangs rest
  | _ :: rest => hangs rest

/-- In the last case of `hangs` the character is not a backslash, neither at
the end nor before another one. -/
theorem ne_backslash (hlast : c = '\\' → text = [] → False)
    (hpair : ∀ d rest, c = '\\' → text = d :: rest → False) : c ≠ '\\' := by
  intro hc
  rcases text with - | ⟨d, rest⟩
  · exact hlast hc rfl
  · exact hpair d rest hc rfl

theorem hangs_cons (h : c ≠ '\\') : hangs (c :: text) = hangs text := by
  rcases text with - | ⟨d, text⟩ <;> simp [hangs, h]

theorem hangs_concat (text : List Char) (c : Char) :
    hangs (text ++ [c]) = (!hangs text && c == '\\') := by
  fun_induction hangs text with
  | case1 =>
      by_cases hc : c = '\\'
      · rw [hc]
        rfl
      · simp [hangs_cons hc, hangs, hc]
  | case2 => rfl
  | case3 d rest ih => exact ih
  | case4 d rest hlast hpair ih =>
      rw [List.cons_append, hangs_cons (ne_backslash hlast hpair), ih]

/-- Of the backslashes at the end of a text every second takes along the one
after it. -/
theorem hangs_eq (text : List Char) :
    hangs text = ((text.reverse.takeWhile (· == '\\')).length % 2 == 1) := by
  -- from the end, since the last backslash hangs exactly if the one before does not
  induction text using List.reverseRecOn with
  | nil => rfl
  | append_singleton text c ih =>
      rw [hangs_concat, ih, List.reverse_append, List.reverse_singleton, List.singleton_append]
      by_cases hc : c = '\\'
      · rw [hc, List.takeWhile_cons_of_pos (by simp), List.length_cons]
        rcases Nat.mod_two_eq_zero_or_one (text.reverse.takeWhile (· == '\\')).length with h | h
        · simp [h, Nat.add_mod]
        · simp [h, Nat.add_mod]
      · rw [List.takeWhile_cons_of_neg (by simpa using hc)]
        simp [hc]

/-! ### The end of a body -/

/-- A text that does not end a body in braces, read from one depth to another:
a backslash takes along the character after it, and no brace is closed that was
not opened. -/
inductive Goes : Nat → Nat → List Char → Prop
  | nil (depth : Nat) : Goes depth depth []
  | escape {depth depth' : Nat} {c : Char} {text : List Char} :
      Goes depth depth' text → Goes depth depth' ('\\' :: c :: text)
  | cons {depth depth' : Nat} {c : Char} {text : List Char} :
      c ≠ '\\' → ¬ (c = '}' ∧ depth = 0) → Goes (depthStep depth c) depth' text →
      Goes depth depth' (c :: text)

theorem Goes.append (h : Goes depth depth' text) (h' : Goes depth' depth'' text') :
    Goes depth depth'' (text ++ text') := by
  induction h with
  | nil => exact h'
  | escape _ ih => exact .escape (ih h')
  | cons hc hclose _ ih => exact .cons hc hclose (ih h')

/-- A character other than a backslash is taken by itself, unless it ends the
body. -/
theorem closedBody?_cons (hc : c ≠ '\\') (hclose : ¬ (c = '}' ∧ depth = 0)) :
    closedBody? '}' depth (c :: text) =
      (closedBody? '}' (depthStep depth c) text).map (c :: ·) := by
  have hunescaped : ∀ d rest, c = '\\' → text = d :: rest → False :=
    fun _ _ heq => absurd heq hc
  rw [closedBody?.eq_3 '}' depth c text hunescaped, depthStep]
  by_cases hopen : c = '{'
  · simp [hopen]
  · by_cases hbrace : c = '}'
    · have hdepth : 0 < depth := Nat.pos_of_ne_zero fun hdepth => hclose ⟨hbrace, hdepth⟩
      simp [hbrace, hdepth]
    · simp [hopen, hbrace]

theorem closedBody?_end (rest : List Char) : closedBody? '}' 0 ('}' :: rest) = some [] := by
  rw [closedBody?.eq_3 '}' 0 '}' rest (by simp)]
  rfl

/-- **The search for the end of a body goes over such a text**, whatever
follows. -/
theorem Goes.closedBody?_append (h : Goes depth depth' text) (rest : List Char) :
    closedBody? '}' depth (text ++ rest) = (closedBody? '}' depth' rest).map (text ++ ·) := by
  induction h with
  | nil => exact Option.map_id'.symm
  | escape _ ih =>
      rw [List.cons_append, List.cons_append, closedBody?, ih, Option.map_map]
      rfl
  | cons hc hclose _ ih =>
      rw [List.cons_append, closedBody?_cons hc hclose, ih, Option.map_map]
      rfl

theorem goes_of_plain (h : ∀ c ∈ text, c ≠ '\\' ∧ c ≠ '{' ∧ c ≠ '}') : Goes depth depth text := by
  induction text with
  | nil => exact .nil depth
  | cons c text ih =>
      obtain ⟨⟨hc, hopen, hclose⟩, htext⟩ := List.forall_mem_cons.mp h
      refine .cons hc (fun h => hclose h.1) ?_
      rw [depthStep_of_ne hopen hclose]
      exact ih htext

/-- **A balanced text in which no brace is taken along is gone over**, unless
a backslash at its end takes along what follows. -/
theorem goes_of_unescaped (hu : Unescaped text) (hh : hangs text = false)
    (hd : depthAfter? depth text = some depth') : Goes depth depth' text := by
  fun_induction hangs text generalizing depth with
  | case1 =>
      obtain rfl := Option.some.inj hd
      exact .nil depth
  | case2 => cases hh
  | case3 c rest ih =>
      -- the backslash and what it takes along, which is not a brace
      obtain ⟨hpair, hrest⟩ := List.isChain_cons_cons.mp hu
      obtain ⟨hopen, hclose⟩ := hpair rfl
      rw [depthAfter?_cons_of_ne (by decide) (by decide),
        depthAfter?_cons_of_ne hopen hclose] at hd
      exact .escape (ih (List.isChain_cons.mp hrest).2 hh hd)
  | case4 c rest hlast hpair ih =>
      obtain ⟨hclose, hd⟩ := depthAfter?_cons_eq_some.mp hd
      exact .cons (ne_backslash hlast hpair) hclose (ih (List.isChain_cons.mp hu).2 hh hd)

/-! ### The start of a block -/

theorem closerOf?_eq_some {opener closer : Char} (h : closerOf? opener = some closer) :
    opener = '{' ∧ closer = '}' ∨ opener = '(' ∧ closer = ')' := by
  unfold closerOf? at h
  split at h
  · exact .inl ⟨rfl, (Option.some.inj h).symm⟩
  · exact .inr ⟨rfl, (Option.some.inj h).symm⟩
  · cases h

theorem isTypeChar_of_isAsciiBlank (h : Text.isAsciiBlank c = true) : isTypeChar c = false := by
  simp only [Text.isAsciiBlank, Bool.or_eq_true, beq_iff_eq] at h
  rcases h with (((rfl | rfl) | rfl) | rfl) | rfl <;> decide

/-- **The start of a block is found** as it was written: a type, blanks and the
delimiter that opens the body. -/
theorem opening?_append {entryType gap rest : List Char} {opener closer : Char}
    (hne : entryType ≠ []) (htype : entryType.all isTypeChar = true)
    (hgap : gap.all Text.isAsciiBlank = true) (hopener : closerOf? opener = some closer) :
    opening? (entryType ++ gap ++ opener :: rest) =
      some (String.ofList (Text.asciiLower entryType), closer,
        entryType.length + gap.length + 1, rest) := by
  have hother : isTypeChar opener = false ∧ Text.isAsciiBlank opener = false := by
    rcases closerOf?_eq_some hopener with ⟨rfl, -⟩ | ⟨rfl, -⟩ <;> decide
  have hhead : ∀ c ∈ (gap ++ opener :: rest).head?, isTypeChar c = false := by
    intro c hc
    rcases gap with - | ⟨d, gap⟩
    · obtain rfl := Option.some.inj hc
      exact hother.1
    · obtain rfl := Option.some.inj hc
      exact isTypeChar_of_isAsciiBlank (List.all_eq_true.mp hgap d List.mem_cons_self)
  obtain ⟨htake, hdrop⟩ := Text.span_append (List.all_eq_true.mp htype) hhead
  have hblanks : (gap ++ opener :: rest).dropWhile Text.isAsciiBlank = opener :: rest := by
    rw [List.dropWhile_append_of_pos (List.all_eq_true.mp hgap),
      List.dropWhile_cons_of_neg (by simp [hother.2])]
  have hlength : (entryType ++ (gap ++ opener :: rest)).length - rest.length =
      entryType.length + gap.length + 1 := by
    simp only [List.length_append, List.length_cons]
    omega
  have hnempty : ¬ entryType.isEmpty = true := by simpa using hne
  simp only [opening?, List.append_assoc, htake, hdrop, hblanks, hopener, hlength, if_neg hnempty]

/-! ### Parts between commas -/

/-- Puts a text before the first of some parts. -/
def attach (text : List Char) : List (List Char) → List (List Char)
  | [] => [text]
  | part :: more => (text ++ part) :: more

theorem attach_attach (text text' : List Char) (parts : List (List Char)) :
    attach text (attach text' parts) = attach (text ++ text') parts := by
  rcases parts with - | ⟨part, more⟩ <;> simp [attach]

theorem attach_ne_nil (text : List Char) (parts : List (List Char)) : attach text parts ≠ [] := by
  rcases parts with - | ⟨part, more⟩ <;> exact List.cons_ne_nil _ _

theorem attach_nil {parts : List (List Char)} (h : parts ≠ []) : attach [] parts = parts := by
  rcases parts with - | ⟨part, more⟩
  · exact absurd rfl h
  · rfl

/-- Whether a quote is open after a character. -/
def quotedStep (depth : Nat) (quoted : Bool) (c : Char) : Bool :=
  if c == '"' && depth == 0 then !quoted else quoted

theorem fieldParts_cons (hc : ¬ (c = ',' ∧ depth = 0 ∧ quoted = false)) :
    fieldParts depth quoted (c :: text) =
      attach [c] (fieldParts (depthStep depth c) (quotedStep depth quoted c) text) := by
  rw [fieldParts, if_neg (by simpa [and_assoc] using hc)]
  rfl

theorem fieldParts_ne_nil (depth : Nat) (quoted : Bool) (text : List Char) :
    fieldParts depth quoted text ≠ [] := by
  rcases text with - | ⟨c, text⟩
  · exact List.cons_ne_nil [] []
  · by_cases hc : c = ',' ∧ depth = 0 ∧ quoted = false
    · obtain ⟨rfl, rfl, rfl⟩ := hc
      exact List.cons_ne_nil [] _
    · rw [fieldParts_cons hc]
      exact attach_ne_nil [c] _

/-- The cutting into parts leaves a text whole and goes over it from one state
to another, whatever follows. -/
def Whole (depth : Nat) (quoted : Bool) (depth' : Nat) (quoted' : Bool) (text : List Char) : Prop :=
  ∀ rest, fieldParts depth quoted (text ++ rest) =
    attach text (fieldParts depth' quoted' rest)

theorem Whole.nil (depth : Nat) (quoted : Bool) : Whole depth quoted depth quoted [] := by
  intro rest
  rw [List.nil_append, attach_nil (fieldParts_ne_nil depth quoted rest)]

theorem Whole.append (h : Whole depth quoted depth' quoted' text)
    (h' : Whole depth' quoted' depth'' quoted'' text') :
    Whole depth quoted depth'' quoted'' (text ++ text') := by
  intro rest
  rw [List.append_assoc, h, h', attach_attach]

/-- A character that does not divide is gone over. -/
theorem Whole.cons (hc : ¬ (c = ',' ∧ depth = 0 ∧ quoted = false))
    (h : Whole (depthStep depth c) (quotedStep depth quoted c) depth' quoted' text) :
    Whole depth quoted depth' quoted' (c :: text) := by
  intro rest
  rw [List.cons_append, fieldParts_cons hc, h, attach_attach]
  rfl

theorem whole_of_plain (h : ∀ c ∈ text, c ≠ ',' ∧ c ≠ '{' ∧ c ≠ '}' ∧ c ≠ '"') :
    Whole 0 false 0 false text := by
  induction text with
  | nil => exact .nil 0 false
  | cons c text ih =>
      obtain ⟨⟨hcomma, hopen, hclose, hquote⟩, htext⟩ := List.forall_mem_cons.mp h
      refine .cons (fun hc => hcomma hc.1) ?_
      simpa [depthStep, quotedStep, hopen, hclose, hquote] using ih htext

/-- Inside braces nothing divides. -/
theorem whole_inside (h : depthAfter? depth text = some depth') :
    Whole (depth + 1) quoted (depth' + 1) quoted text := by
  induction text generalizing depth with
  | nil =>
      obtain rfl := Option.some.inj h
      exact .nil (depth + 1) quoted
  | cons c text ih =>
      -- the depth is never zero, so commas do not divide and quotes do not count
      obtain ⟨hc, hdepth⟩ := depthAfter?_cons_eq_some.mp h
      refine .cons (by simp) ?_
      rw [depthStep_succ hc]
      simpa [quotedStep] using ih hdepth

/-- Whether no quote of a text is outside all braces. -/
def quoteFree (depth : Nat) : List Char → Bool
  | [] => true
  | c :: rest => !(c == '"' && depth == 0) && quoteFree (depthStep depth c) rest

/-- Inside quotes nothing divides either. -/
theorem whole_inside_quotes (h : depthAfter? depth text = some depth')
    (hquotes : quoteFree depth text = true) : Whole depth true depth' true text := by
  induction text generalizing depth with
  | nil =>
      obtain rfl := Option.some.inj h
      exact .nil depth true
  | cons c text ih =>
      obtain ⟨-, hdepth⟩ := depthAfter?_cons_eq_some.mp h
      rw [quoteFree, Bool.and_eq_true, Bool.not_eq_true'] at hquotes
      have hquoted : quotedStep depth true c = true := by
        rw [quotedStep, hquotes.1]
        rfl
      refine .cons (by simp) ?_
      rw [hquoted]
      exact ih hdepth hquotes.2

/-- A dividing comma ends the part before it. -/
theorem Whole.fieldParts_comma (h : Whole 0 false 0 false text) (rest : List Char) :
    fieldParts 0 false (text ++ ',' :: rest) = text :: fieldParts 0 false rest := by
  rw [h, fieldParts, if_pos (by decide), attach, List.append_nil]

theorem Whole.fieldParts_eq (h : Whole 0 false 0 false text) :
    fieldParts 0 false text = [text] := by
  rw [← List.append_nil text, h, fieldParts, attach]

end Bib

end LatexIndex
