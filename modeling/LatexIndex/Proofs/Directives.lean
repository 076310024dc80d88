/-
LatexIndex/Proofs/Directives.lean

Directives with a closed argument, and what follows them.

Each reader of a directive stops at a delimiter: the command at the first
character that is no letter, the option groups at a brace, the argument at the
brace that closes it.  So what a reader gives does not depend on what follows
that delimiter (`braceBody_closes`, `afterOptions_stops`, `takeCommand_stops`),
and a directive with a closed argument is the same in every line that begins with
the text up to its closing brace (`directiveAt?_closes`).  A longer line has the
directives that are closed in a shorter one (`mem_directives_of_begins`), and
where a line is cut, those are left that are closed before the cut
(`filter_directives_take`).

The delimiter of a verbatim-like environment is looked for as a piece of text;
it, too, is found whatever follows it (`closingPosition?_eq_some`).
-/
import LatexIndex.Proofs.Delimiters
import LatexIndex.Proofs.Markers

namespace LatexIndex

open Text

/-! ### The first occurrence of a text -/

namespace Text

variable {needle text : List Char} {i : Nat}

/-- **The first occurrence** of a text is there whatever follows it. -/
theorem find?_eq_some (h : find? needle text = some i) :
    ∃ front rest, text = front ++ needle ++ rest ∧ front.length = i ∧
      ∀ rest', find? needle (front ++ needle ++ rest') = some i := by
  have hnow : ∀ rest, find? needle (needle ++ rest) = some 0 := by
    intro rest
    rcases hneedle : needle with - | ⟨c, cs⟩
    · rcases rest with - | ⟨d, rest⟩ <;> rfl
    · rw [List.cons_append, find?, if_pos]
      exact List.isPrefixOf_iff_prefix.mpr (List.prefix_append (c :: cs) rest)
  induction text generalizing i with
  | nil =>
      rw [find?] at h
      split at h
      · next hempty =>
          obtain rfl := List.isEmpty_iff.mp hempty
          obtain rfl := Option.some.inj h
          exact ⟨[], [], rfl, rfl, hnow⟩
      · cases h
  | cons c text ih =>
      rw [find?] at h
      split at h
      · next hpre =>
          obtain ⟨rest, hrest⟩ := List.isPrefixOf_iff_prefix.mp hpre
          obtain rfl := Option.some.inj h
          exact ⟨[], rest, hrest.symm, rfl, hnow⟩
      · next hpre =>
          obtain ⟨j, hj, rfl⟩ := Option.map_eq_some_iff.mp h
          obtain ⟨front, rest, rfl, hfront, hany⟩ := ih hj
          refine ⟨c :: front, rest, rfl, by rw [List.length_cons, hfront], fun rest' => ?_⟩
          -- an occurrence before this one would end before this one does
          have hnot : ¬ needle <+: c :: (front ++ needle ++ rest') := by
            intro hbegins
            rw [List.isPrefixOf_iff_prefix] at hpre
            have hlength : needle.length ≤ (c :: (front ++ needle)).length := by
              simp only [List.length_cons, List.length_append]
              omega
            have hwithin : needle <+: c :: (front ++ needle) :=
              List.prefix_of_prefix_length_le hbegins (List.prefix_append _ rest') hlength
            exact hpre (hwithin.trans (List.prefix_append _ rest))
          rw [List.cons_append, List.cons_append, find?,
            if_neg (mt List.isPrefixOf_iff_prefix.mp hnot), hany]
          rfl

/-! ### Byte columns -/

theorem bytes_append (left right : List Char) : bytes (left ++ right) = bytes left + bytes right := by
  induction left with
  | nil => rw [List.nil_append, bytes, Nat.zero_add]
  | cons c left ih => rw [List.cons_append, bytes, bytes, ih, Nat.add_assoc]

theorem byteColumn_front (front back : List Char) :
    byteColumn (front ++ back) front.length = bytes front := by
  rw [byteColumn, List.take_left]

theorem byteColumn_of_le {front : List Char} (h : i ≤ front.length) (back : List Char) :
    byteColumn (front ++ back) i = byteColumn front i := by
  rw [byteColumn, byteColumn, List.take_append_of_le_length h]

theorem byteColumn_le {j : Nat} (h : i ≤ j) (text : List Char) :
    byteColumn text i ≤ byteColumn text j := by
  obtain ⟨rest, hrest⟩ := List.take_prefix_take_left h (l := text)
  rw [byteColumn, byteColumn, ← hrest, bytes_append]
  exact Nat.le_add_right _ _

end Text

namespace Markup

variable {text rest argument : List Char} {pos start depth : Nat} {d : Directive} {c : Char}

/-! ### Arguments -/

/-- **An argument ends at the brace that closes it**, whatever follows. -/
theorem braceBody_closes (h : braceBody depth text = some argument) :
    ∃ rest, text = argument ++ '}' :: rest ∧
      ∀ rest', braceBody depth (argument ++ '}' :: rest') = some argument := by
  induction depth, text using braceBody.induct generalizing argument with
  | case1 => simp [braceBody] at h
  | case2 depth c text ih =>
      rw [braceBody] at h
      obtain ⟨inner, hinner, rfl⟩ := Option.map_eq_some_iff.mp h
      obtain ⟨rest, rfl, hany⟩ := ih hinner
      exact ⟨rest, rfl, fun rest' => by simp [braceBody, hany]⟩
  | case3 depth text ih =>
      rw [braceBody] at h
      obtain ⟨inner, hinner, rfl⟩ := Option.map_eq_some_iff.mp h
      obtain ⟨rest, rfl, hany⟩ := ih hinner
      exact ⟨rest, rfl, fun rest' => by simp [braceBody, hany]⟩
  | case4 text =>
      obtain rfl : [] = argument := by simpa [braceBody] using h
      exact ⟨text, rfl, fun rest' => by simp [braceBody]⟩
  | case5 text depth ih =>
      rw [braceBody] at h
      obtain ⟨inner, hinner, rfl⟩ := Option.map_eq_some_iff.mp h
      obtain ⟨rest, rfl, hany⟩ := ih hinner
      exact ⟨rest, rfl, fun rest' => by simp [braceBody, hany]⟩
  | case6 depth c text hescape hopen hclose ih =>
      rw [braceBody.eq_6 _ _ _ hescape hopen hclose] at h
      obtain ⟨inner, hinner, rfl⟩ := Option.map_eq_some_iff.mp h
      obtain ⟨rest, rfl, hany⟩ := ih hinner
      -- the character is no backslash, since something follows it
      have hc : c ≠ '\\' := by
        rintro rfl
        obtain ⟨d, more, hmore⟩ :=
          List.exists_cons_of_ne_nil (show inner ++ '}' :: rest ≠ [] by simp)
        exact hescape d more rfl hmore
      refine ⟨rest, rfl, fun rest' => ?_⟩
      rw [List.cons_append, braceBody.eq_6 _ _ _ (fun _ _ heq => absurd heq hc) hopen hclose, hany]
      rfl

theorem braceBody_of_plain (h : ∀ c ∈ argument, c ≠ '\\' ∧ c ≠ '{' ∧ c ≠ '}') (rest : List Char) :
    braceBody 0 (argument ++ '}' :: rest) = some argument := by
  induction argument with
  | nil => simp [braceBody]
  | cons c argument ih =>
      obtain ⟨⟨hc, hopen, hclose⟩, hmore⟩ := List.forall_mem_cons.mp h
      rw [List.cons_append, braceBody.eq_6 _ _ _ (fun _ _ heq => absurd heq hc) hopen hclose,
        ih hmore]
      rfl

/-- **Option groups end at a brace**, whatever follows it. -/
theorem afterOptions_stops {inside : Bool} (h : afterOptions inside text = some ('{' :: rest)) :
    ∃ options, text = options ++ '{' :: rest ∧
      ∀ rest', afterOptions inside (options ++ '{' :: rest') = some ('{' :: rest') := by
  induction text generalizing inside with
  | nil => cases inside <;> cases h
  | cons c text ih =>
      by_cases hstop : inside = false ∧ c = '{'
      · obtain ⟨rfl, rfl⟩ := hstop
        obtain rfl : text = rest := by simpa [afterOptions, isAsciiBlank] using h
        exact ⟨[], rfl, fun rest' => by simp [afterOptions, isAsciiBlank]⟩
      · -- the state after `c` does not depend on what follows it
        have hstep : ∃ inside', ∀ more,
            afterOptions inside (c :: more) = afterOptions inside' more := by
          cases inside with
          | true => exact ⟨c != ']', fun _ => rfl⟩
          | false =>
              by_cases hblank : isAsciiBlank c = true
              · exact ⟨false, fun _ => by simp [afterOptions, hblank]⟩
              by_cases hgroup : c = '['
              · exact ⟨true, fun _ => by simp [afterOptions, hgroup, isAsciiBlank]⟩
              · have hc : c = '{' ∧ text = rest := by simpa [afterOptions, hblank, hgroup] using h
                exact absurd ⟨rfl, hc.1⟩ hstop
        obtain ⟨inside', hstep⟩ := hstep
        rw [hstep] at h
        obtain ⟨options, rfl, hany⟩ := ih h
        exact ⟨c :: options, rfl, fun rest' => by rw [List.cons_append, hstep, hany]⟩

/-- A closed argument is read whatever follows its closing brace. -/
theorem readArgument_closes (h : readArgument pos text = .closed start argument) :
    ∃ options rest, text = options ++ '{' :: (argument ++ '}' :: rest) ∧
      start = pos + options.length + 1 ∧ ∀ rest',
        readArgument pos (options ++ '{' :: (argument ++ '}' :: rest')) = .closed start argument := by
  unfold readArgument at h
  split at h
  · next more hoptions =>
      obtain ⟨options, rfl, hstop⟩ := afterOptions_stops hoptions
      split at h
      · next body hbody =>
          obtain ⟨hstart, rfl⟩ := Argument.closed.inj h
          obtain ⟨rest, rfl, hclose⟩ := braceBody_closes hbody
          have hplace : ∀ more : List Char,
              pos + ((options ++ '{' :: more).length - more.length) = pos + options.length + 1 := by
            intro more
            simp only [List.length_append, List.length_cons]
            omega
          rw [hplace] at hstart
          refine ⟨options, rest, rfl, hstart.symm, fun rest' => ?_⟩
          simp only [readArgument, hstop, hclose, hplace, hstart]
      · cases h
  · cases h

/-! ### Commands -/

theorem takeCommand_starred {letters : List Char} (h : ∀ c ∈ letters, isLetter c = true)
    (rest : List Char) : takeCommand (letters ++ '*' :: rest) = (letters ++ ['*'], rest) := by
  have hhead : ∀ c ∈ ('*' :: rest).head?, isLetter c = false := by
    rintro c hc
    obtain rfl := Option.some.inj hc
    decide
  obtain ⟨htake, hdrop⟩ := span_append h hhead
  simp only [takeCommand, htake, hdrop]

theorem takeCommand_plain {letters : List Char} (h : ∀ c ∈ letters, isLetter c = true)
    (hhead : ∀ c ∈ rest.head?, isLetter c = false ∧ c ≠ '*') :
    takeCommand (letters ++ rest) = (letters, rest) := by
  obtain ⟨htake, hdrop⟩ := span_append h fun c hc => (hhead c hc).1
  rw [takeCommand, htake, hdrop]
  split
  · exact absurd rfl (hhead '*' rfl).2
  · rfl

/-- **A command ends where something else begins**, and what follows that makes
no difference. -/
theorem takeCommand_stops {command : List Char} (h : takeCommand text = (command, rest))
    (hrest : rest ≠ []) :
    text = command ++ rest ∧
      ∀ rest', rest'.head? = rest.head? → takeCommand (command ++ rest') = (command, rest') := by
  have hletters : ∀ c ∈ text.takeWhile isLetter, isLetter c = true :=
    List.all_eq_true.mp List.all_takeWhile
  have hsplit : text = text.takeWhile isLetter ++ text.dropWhile isLetter :=
    List.takeWhile_append_dropWhile.symm
  unfold takeCommand at h
  split at h
  · -- a `*` ends the command by itself
    next more hmore =>
      obtain ⟨rfl, rfl⟩ := Prod.mk.inj h
      refine ⟨?_, fun rest' _ => ?_⟩
      · rwa [List.append_assoc, List.singleton_append, ← hmore]
      · rw [List.append_assoc, List.singleton_append, takeCommand_starred hletters]
  · -- the next character is neither a letter nor a `*`, and that stays so
    next hstar =>
      obtain ⟨rfl, rfl⟩ := Prod.mk.inj h
      refine ⟨hsplit, fun rest' hhead => takeCommand_plain hletters fun c hc => ?_⟩
      rw [hhead] at hc
      have hnot := List.head?_dropWhile_not isLetter text
      obtain ⟨more, hmore⟩ := List.head?_eq_some_iff.mp hc
      rw [hmore] at hnot
      refine ⟨hnot, ?_⟩
      rintro rfl
      exact hstar more hmore

/-! ### Directives -/

theorem directiveAt?_eq (pos : Nat) (text : List Char) :
    directiveAt? pos text
      = if text.head?.any isLetter then
          some ⟨pos, String.ofList (takeCommand text).1,
            readArgument (pos + 1 + (takeCommand text).1.length) (takeCommand text).2⟩
        else none := by
  cases text <;> rfl

/-- **A directive with a closed argument is the same whatever follows it**: it
ends at the brace that closes its argument. -/
theorem directiveAt?_closes (h : directiveAt? pos text = some d)
    (hd : d.argument = .closed start argument) :
    ∃ written rest, text = written ++ (argument ++ '}' :: rest) ∧
      start = pos + 1 + written.length ∧ d.name.toList <+: written ∧
      ∀ rest', directiveAt? pos (written ++ (argument ++ '}' :: rest')) = some d := by
  rw [directiveAt?_eq] at h
  split at h
  · next hletter =>
      rcases htake : takeCommand text with ⟨command, after⟩
      rw [htake] at h
      obtain rfl := Option.some.inj h
      obtain ⟨options, rest, rfl, hstart, hread⟩ := readArgument_closes hd
      obtain ⟨rfl, hstops⟩ := takeCommand_stops htake (by simp)
      refine ⟨command ++ options ++ ['{'], rest, by simp, ?_, ?_, fun rest' => ?_⟩
      · show start = pos + 1 + (command ++ options ++ ['{']).length
        rw [hstart]
        simp only [List.length_append, List.length_singleton]
        omega
      · rw [Directive.name, String.toList_ofList, String.toList_ofList, List.append_assoc]
        exact (List.takeWhile_prefix isLetter).trans (List.prefix_append command _)
      · -- the command is followed by an option or by the brace, as before
        have hhead : (options ++ '{' :: (argument ++ '}' :: rest')).head?
            = (options ++ '{' :: (argument ++ '}' :: rest)).head? := by
          simp [List.head?_append]
        have htext : command ++ options ++ ['{'] ++ (argument ++ '}' :: rest')
            = command ++ (options ++ '{' :: (argument ++ '}' :: rest')) := by
          simp
        rw [List.head?_append, ← hhead, ← List.head?_append] at hletter
        rw [htext, directiveAt?_eq, if_pos hletter, hstops _ hhead, hread]
        exact congrArg some (congrArg _ hd.symm)
  · cases h

/-- The directives of a text start at its backslashes. -/
theorem mem_directivesFrom_iff :
    d ∈ directivesFrom pos text ↔
      ∃ front back, text = front ++ '\\' :: back ∧ directiveAt? (pos + front.length) back = some d := by
  induction text generalizing pos with
  | nil => simp [directivesFrom]
  | cons c rest ih =>
      rw [directivesFrom, List.mem_append, ih]
      constructor
      · rintro (h | ⟨front, back, rfl, h⟩)
        · split at h
          · next hc => exact ⟨[], rest, by rw [beq_iff_eq.mp hc]; rfl, Option.mem_toList.mp h⟩
          · cases h
        · refine ⟨c :: front, back, rfl, ?_⟩
          rwa [List.length_cons, Nat.add_comm front.length, ← Nat.add_assoc]
      · rintro ⟨front, back, heq, h⟩
        rcases front with - | ⟨c', front⟩
        · obtain ⟨rfl, rfl⟩ := List.cons.inj heq
          exact .inl (Option.mem_toList.mpr h)
        · obtain ⟨rfl, rfl⟩ := List.cons.inj heq
          refine .inr ⟨front, back, rfl, ?_⟩
          rwa [List.length_cons, Nat.add_comm front.length, ← Nat.add_assoc] at h

/-- A directive with a closed argument in its line. -/
theorem exists_of_mem_directives (h : d ∈ directives text)
    (hd : d.argument = .closed start argument) :
    ∃ front written rest, text = front ++ '\\' :: (written ++ (argument ++ '}' :: rest)) ∧
      front.length = d.start ∧ d.name.toList <+: written ∧
      start = front.length + 1 + written.length ∧
      ∀ rest', d ∈ directives (front ++ '\\' :: (written ++ (argument ++ '}' :: rest'))) := by
  obtain ⟨front, back, rfl, hat⟩ := mem_directivesFrom_iff.mp h
  rw [Nat.zero_add] at hat
  obtain ⟨written, rest, rfl, hstart, hname, hany⟩ := directiveAt?_closes hat hd
  refine ⟨front, written, rest, rfl, (start_of_directiveAt? hat).1.symm, hname, hstart,
    fun rest' => mem_directivesFrom_iff.mpr ⟨front, _, rfl, ?_⟩⟩
  rw [Nat.zero_add]
  exact hany rest'

/-- A longer line has the directives that are closed in a shorter one. -/
theorem mem_directives_of_begins {kept line : List Char} (hbegins : kept <+: line)
    (h : d ∈ directives kept) (hd : d.argument = .closed start argument) : d ∈ directives line := by
  obtain ⟨more, rfl⟩ := hbegins
  obtain ⟨front, written, rest, rfl, -, -, -, hany⟩ := exists_of_mem_directives h hd
  have hline := hany (rest ++ more)
  rwa [show front ++ '\\' :: (written ++ (argument ++ '}' :: rest)) ++ more
    = front ++ '\\' :: (written ++ (argument ++ '}' :: (rest ++ more))) by simp]

/-- The delimiter of an environment is a directive that ends it. -/
theorem directiveAt?_end {environment : List Char}
    (h : ∀ c ∈ environment, c ≠ '\\' ∧ c ≠ '{' ∧ c ≠ '}') (pos : Nat) (rest : List Char) :
    directiveAt? pos ("end".toList ++ '{' :: (environment ++ '}' :: rest))
      = some ⟨pos, "end", .closed (pos + 5) environment⟩ := by
  have htake : takeCommand ("end".toList ++ '{' :: (environment ++ '}' :: rest))
      = ("end".toList, '{' :: (environment ++ '}' :: rest)) := by
    have hletters : "end".toList.all isLetter = true := by decide
    refine takeCommand_plain (List.all_eq_true.mp hletters) fun c hc => ?_
    obtain rfl := Option.some.inj hc
    decide
  have hread : readArgument (pos + 4) ('{' :: (environment ++ '}' :: rest))
      = .closed (pos + 5) environment := by
    have hoptions : afterOptions false ('{' :: (environment ++ '}' :: rest))
        = some ('{' :: (environment ++ '}' :: rest)) := by
      simp [afterOptions, isAsciiBlank]
    simp only [readArgument, hoptions, braceBody_of_plain h, List.length_cons]
    congr 1
    omega
  rw [directiveAt?_eq, htake, if_pos (by rfl)]
  exact congrArg some (congrArg _ hread)

/-! ### The beginning of a line -/

/-- Whether the argument of a directive is closed before position `n`. -/
def Directive.endsBefore (n : Nat) (d : Directive) : Bool :=
  d.argument.stop?.any (· < n)

theorem Directive.exists_of_isTerminated (h : d.isTerminated = true) :
    ∃ start argument, d.argument = .closed start argument := by
  rcases harg : d.argument with - | start | ⟨start, argument⟩
  · simp [isTerminated, harg, Argument.stop?] at h
  · simp [isTerminated, harg, Argument.stop?] at h
  · exact ⟨start, argument, rfl⟩

theorem Directive.endsBefore_iff {n : Nat} (hd : d.argument = .closed start argument) :
    d.endsBefore n = true ↔ start + argument.length < n := by
  simp [endsBefore, hd, Argument.stop?]

theorem Directive.isTerminated_of_endsBefore {n : Nat} (h : d.endsBefore n = true) :
    d.isTerminated = true := by
  rcases hstop : d.argument.stop? with - | stop
  · rw [endsBefore, hstop] at h
    cases h
  · rw [isTerminated, hstop]
    rfl

/-- The directive at a place of the beginning of a text, if it is closed there,
is the one at that place of the whole text. -/
theorem filter_directiveAt?_take (pos n : Nat) (text : List Char) :
    (directiveAt? pos (text.take n)).filter Directive.isTerminated
      = (directiveAt? pos text).filter (Directive.endsBefore (pos + 1 + n)) := by
  ext d
  rw [Option.filter_eq_some_iff, Option.filter_eq_some_iff]
  constructor
  · rintro ⟨hat, hclosed⟩
    obtain ⟨start, argument, hd⟩ := Directive.exists_of_isTerminated hclosed
    obtain ⟨written, rest, htake, hstart, -, hany⟩ := directiveAt?_closes hat hd
    have htext : text = written ++ (argument ++ '}' :: (rest ++ text.drop n)) := by
      calc text = text.take n ++ text.drop n := (List.take_append_drop n text).symm
        _ = written ++ (argument ++ '}' :: (rest ++ text.drop n)) := by
            rw [htake]
            simp
    refine ⟨by rw [htext]; exact hany _, (Directive.endsBefore_iff hd).mpr ?_⟩
    have hlength := congrArg List.length htake
    simp only [List.length_take, List.length_append, List.length_cons] at hlength
    omega
  · rintro ⟨hat, hends⟩
    obtain ⟨start, argument, hd⟩ :=
      Directive.exists_of_isTerminated (Directive.isTerminated_of_endsBefore hends)
    rw [Directive.endsBefore_iff hd] at hends
    obtain ⟨written, rest, rfl, hstart, -, hany⟩ := directiveAt?_closes hat hd
    -- what is cut off stands after the closing brace
    have hcut : (written ++ (argument ++ '}' :: rest)).take n
        = written ++ (argument ++ '}' :: rest.take (n - (written.length + argument.length + 1))) := by
      rw [List.take_append, List.take_of_length_le (by omega), List.take_append,
        List.take_of_length_le (by omega),
        show n - written.length - argument.length
          = n - (written.length + argument.length + 1) + 1 by omega, List.take_succ_cons]
    refine ⟨by rw [hcut]; exact hany _, ?_⟩
    simp [Directive.isTerminated, hd, Argument.stop?]

theorem filter_directivesFrom_take (pos n : Nat) (text : List Char) :
    (directivesFrom pos (text.take n)).filter Directive.isTerminated
      = (directivesFrom pos text).filter (Directive.endsBefore (pos + n)) := by
  induction text generalizing pos n with
  | nil => simp [directivesFrom]
  | cons c rest ih =>
      cases n with
      | zero =>
          -- an argument is closed after the backslash of its directive
          symm
          rw [List.take_zero, directivesFrom, List.filter_nil, List.filter_eq_nil_iff]
          intro d hd hends
          obtain ⟨start, argument, harg⟩ :=
            Directive.exists_of_isTerminated (Directive.isTerminated_of_endsBefore hends)
          rw [Directive.endsBefore_iff harg] at hends
          have hstanding := standing_directivesFrom hd
          have hfirst := hstanding.first_le
          have hstart := hstanding.argument start argument harg
          omega
      | succ n =>
          have hhere := congrArg Option.toList (filter_directiveAt?_take pos n rest)
          rw [Option.toList_filter, Option.toList_filter, Nat.add_assoc, Nat.add_comm 1] at hhere
          rw [List.take_succ_cons, directivesFrom, directivesFrom, List.filter_append,
            List.filter_append, ih (pos + 1) n, Nat.add_assoc, Nat.add_comm 1]
          congr 1
          split
          · exact hhere
          · rfl

/-- **Cutting a line.**  The closed directives of the beginning of a line are
those of the line that are closed in it. -/
theorem filter_directives_take (n : Nat) (text : List Char) :
    (directives (text.take n)).filter Directive.isTerminated
      = (directives text).filter (Directive.endsBefore n) := by
  have h := filter_directivesFrom_take 0 n text
  rwa [Nat.zero_add] at h

/-! ### The delimiter of a verbatim-like environment -/

theorem closingDelimiter_eq (environment : String) :
    closingDelimiter environment
      = '\\' :: ("end".toList ++ '{' :: (environment.toList ++ ['}'])) :=
  rfl

/-- **The end of a verbatim-like environment** is found where its delimiter is,
whatever follows it. -/
theorem closingPosition?_eq_some {environment : String} {line : List Char}
    (h : closingPosition? environment start line = some pos) :
    ∃ front rest, line = front ++ closingDelimiter environment ++ rest ∧ front.length = pos ∧
      start ≤ pos ∧
      ∀ rest', closingPosition? environment start (front ++ closingDelimiter environment ++ rest')
        = some pos := by
  obtain ⟨i, hi, rfl⟩ := Option.map_eq_some_iff.mp h
  obtain ⟨front, rest, hdrop, rfl, hany⟩ := find?_eq_some hi
  have hle : start ≤ line.length := by
    by_contra hlt
    rw [List.drop_eq_nil_of_le (by omega), closingDelimiter_eq] at hdrop
    simp at hdrop
  have hlength : (line.take start).length = start := List.length_take_of_le hle
  refine ⟨line.take start ++ front, rest, ?_, ?_, Nat.le_add_right _ _, fun rest' => ?_⟩
  · rw [List.append_assoc, List.append_assoc, ← List.append_assoc front, ← hdrop,
      List.take_append_drop]
  · rw [List.length_append, hlength]
  · rw [closingPosition?, List.append_assoc, List.append_assoc, ← List.append_assoc front,
      List.drop_left' hlength, hany]
    rfl

end Markup

end LatexIndex
