/-
LatexIndex/Proofs/DirectiveGrammar.lean

The grammar of directives, over the bytes of a line.

What a directive is can be said without characters: a backslash and a letter, the
letters from there on with at most one `*`, blanks and option groups (`Options`), and a
brace with its argument, which ends where the depth first returns to zero
(`FirstReturn`).  A line is read by this grammar, no more and no less: its directives
start where the grammar lets one start, and the byte offsets of each are those of the
grammar (`Directive.Follows`).

All of them lie between characters, so whatever is cut out of a line at such an offset
can be: the argument, the rest of the line, and the word that is being typed.
-/
import LatexIndex.Proofs.BraceDepth
import LatexIndex.Proofs.Markers
import LatexIndex.Proofs.TypedWord
import LatexIndex.Proofs.UnreadText
import Mathlib.Data.List.TakeWhile

namespace LatexIndex.Markup

open Text

variable {line text rest tail before : List Char} {d : Directive} {inside : Bool}
  {xs ys options ts : List UInt8} {i j : Nat}

/-! ### The grammar -/

/-- A backslash directly before a letter. -/
def StartsCommand (xs : List UInt8) (i : Nat) : Prop :=
  ∃ b rest, xs.drop i = '\\'.toUInt8 :: b :: rest ∧ onByte isLetter b = true

/-- All letters at the beginning, and a `*` after them. -/
def commandOf (xs : List UInt8) : List UInt8 :=
  xs.takeWhile (onByte isLetter) ++
    ((xs.dropWhile (onByte isLetter)).take 1).filter (· = '*'.toUInt8)

/-- Blanks and option groups, each closed by its first `]`. -/
inductive Options : List UInt8 → Prop
  | none : Options []
  | blank {b xs} : onByte isAsciiBlank b = true → Options xs → Options (b :: xs)
  | group {body xs} : ']'.toUInt8 ∉ body → Options xs →
      Options ('['.toUInt8 :: (body ++ ']'.toUInt8 :: xs))

/-- Options, and a brace after them. -/
structure Opens (xs options ts : List UInt8) : Prop where
  eq : xs = options ++ '{'.toUInt8 :: ts
  options : Options options

/-- What is read of an argument is what the grammar says of the bytes from offset
`base` on. -/
structure Argument.Follows (line : List Char) (base : Nat) (arg : Argument) : Prop where
  start_iff : ∀ i, arg.start?.map (byteColumn line) = some i ↔
    ∃ options ts, Opens ((encoded line).drop base) options ts ∧ i = base + options.length + 1
  stop_iff : ∀ i, arg.stop?.map (byteColumn line) = some i ↔
    ∃ options ts, Opens ((encoded line).drop base) options ts ∧
      ∃ k, FirstReturn ('{'.toUInt8 :: ts) k ∧ i = base + options.length + k
  text_iff : ∀ a, arg.text? = some a ↔
    ∃ options more, Opens ((encoded line).drop base) options (encoded a ++ '}'.toUInt8 :: more) ∧
      FirstReturn ('{'.toUInt8 :: (encoded a ++ '}'.toUInt8 :: more)) (bytes a + 1)
  unclosed_iff : arg.start?.isSome = true ∧ arg.stop? = none ↔
    ∃ options ts, Opens ((encoded line).drop base) options ts ∧
      ∀ k, ¬ FirstReturn ('{'.toUInt8 :: ts) k
  /-- While an argument is read, the depth does not fall below zero. -/
  level : ∀ options ts n, Opens ((encoded line).drop base) options ts →
    (∀ k, FirstReturn ('{'.toUInt8 :: ts) k → n ≤ k + 1) → NoneMissing n ('{'.toUInt8 :: ts)

/-- Byte offset of the backslash of a directive. -/
def Directive.column (line : List Char) (d : Directive) : Nat :=
  byteColumn line d.start

/-- What is read of a directive is what the grammar says of the bytes at its offset. -/
structure Directive.Follows (line : List Char) (d : Directive) : Prop where
  command : encoded d.command.toList = commandOf ((encoded line).drop (d.column line + 1))
  argument : d.argument.Follows line (d.column line + 1 + bytes d.command.toList)

/-! ### Options -/

theorem isAscii_of_isLetter (c : Char) (h : isLetter c = true) : IsAscii c := by
  simp only [isLetter, Bool.or_eq_true, Bool.and_eq_true, decide_eq_true_eq] at h
  rcases h with h | h
  · have hlast : c.toNat ≤ 122 := h.2
    exact Nat.lt_of_le_of_lt hlast (by decide)
  · have hlast : c.toNat ≤ 90 := h.2
    exact Nat.lt_of_le_of_lt hlast (by decide)

theorem afterOptions_group {body : List Char} (h : ']' ∉ body) (rest : List Char) :
    afterOptions true (body ++ ']' :: rest) = afterOptions false rest := by
  induction body with
  | nil => simp [afterOptions]
  | cons c body ih =>
      rw [List.mem_cons, not_or] at h
      have hc : (c != ']') = true := by simpa using Ne.symm h.1
      rw [List.cons_append, afterOptions, if_pos rfl, hc, ih h.2]

/-- Options are read to their end. -/
theorem Options.afterOptions (h : Options xs) (hxs : encoded text = xs) (rest : List Char) :
    afterOptions false (text ++ rest) = Markup.afterOptions false rest := by
  induction h generalizing text with
  | none => rw [encoded_eq_nil_iff.mp hxs, List.nil_append]
  | @blank b xs hblank _ ih =>
      obtain ⟨c, hc, hascii, rfl⟩ := exists_of_onByte isAscii_of_isAsciiBlank hblank
      obtain ⟨front, back, rfl, hfront, hback⟩ := @encoded_eq_append text c [] xs hascii hxs
      obtain rfl := encoded_eq_nil_iff.mp hfront
      rw [List.nil_append, List.cons_append, Markup.afterOptions, if_neg Bool.false_ne_true,
        if_pos hc, ih hback]
  | @group body xs hbody _ ih =>
      obtain ⟨front, more, rfl, hfront, hmore⟩ := @encoded_eq_append text '[' [] _ (by decide) hxs
      obtain rfl := encoded_eq_nil_iff.mp hfront
      obtain ⟨inner, back, rfl, rfl, hback⟩ := encoded_eq_append (by decide) hmore
      rw [toUInt8_mem_encoded_iff (by decide)] at hbody
      have hgroup := afterOptions_group hbody (back ++ rest)
      simp only [List.nil_append, List.cons_append, List.append_assoc, Markup.afterOptions]
      rw [hgroup, ih hback]
      rfl

/-- Options, or what is left of them within a group. -/
def OptionsFrom : Bool → List UInt8 → Prop
  | false, xs => Options xs
  | true, xs => ∃ body more, xs = body ++ ']'.toUInt8 :: more ∧ ']'.toUInt8 ∉ body ∧ Options more

/-- What is skipped before a brace are options. -/
theorem optionsFrom_of_afterOptions (h : afterOptions inside text = some ('{' :: tail)) :
    ∃ skipped, text = skipped ++ '{' :: tail ∧ OptionsFrom inside (encoded skipped) := by
  induction text generalizing inside with
  | nil => cases inside <;> cases h
  | cons c text ih =>
      cases inside with
      | true =>
          rw [afterOptions, if_pos rfl] at h
          obtain ⟨skipped, rfl, hskipped⟩ := ih h
          refine ⟨c :: skipped, rfl, ?_⟩
          by_cases hc : c = ']'
          · subst hc
            exact ⟨[], encoded skipped, encoded_cons_of_isAscii (by decide) _, by simp, hskipped⟩
          · rw [bne_iff_ne.mpr hc] at hskipped
            obtain ⟨body, more, hbytes, hbody, hmore⟩ := hskipped
            refine ⟨String.utf8EncodeChar c ++ body, more, ?_, ?_, hmore⟩
            · rw [encoded_cons, hbytes, List.append_assoc]
            · rw [List.mem_append, not_or]
              exact ⟨toUInt8_notMem_utf8EncodeChar (by decide) hc, hbody⟩
      | false =>
          rw [afterOptions, if_neg Bool.false_ne_true] at h
          split at h
          · next hblank =>
              obtain ⟨skipped, rfl, hskipped⟩ := ih h
              have hascii := isAscii_of_isAsciiBlank c hblank
              refine ⟨c :: skipped, rfl, ?_⟩
              rw [encoded_cons_of_isAscii hascii]
              exact .blank (by rwa [onByte_toUInt8 hascii]) hskipped
          · split at h
            · next hgroup =>
                obtain rfl := beq_iff_eq.mp hgroup
                obtain ⟨skipped, rfl, body, more, hbytes, hbody, hmore⟩ := ih h
                refine ⟨'[' :: skipped, rfl, ?_⟩
                rw [encoded_cons_of_isAscii (by decide), hbytes]
                exact .group hbody hmore
            · obtain ⟨rfl, rfl⟩ := List.cons.inj (Option.some.inj h)
              exact ⟨[], rfl, .none⟩

/-- **A brace after options** is where reading gets to. -/
theorem opens_iff (h : text = before ++ '{' :: tail) :
    Opens (encoded text) (encoded before) (encoded tail) ↔
      afterOptions false text = some ('{' :: tail) := by
  subst h
  have hbrace : afterOptions false ('{' :: tail) = some ('{' :: tail) := by
    simp [afterOptions, isAsciiBlank]
  constructor
  · intro h
    rw [h.options.afterOptions rfl, hbrace]
  · intro h
    obtain ⟨skipped, heq, hskipped⟩ := optionsFrom_of_afterOptions h
    obtain rfl : before = skipped := List.append_cancel_right heq
    exact ⟨by rw [encoded_append, encoded_cons_of_isAscii (by decide)], hskipped⟩

/-- Options before a brace are those of characters. -/
theorem Opens.exists_text (h : Opens (encoded text) options ts) :
    ∃ skipped tail, text = skipped ++ '{' :: tail ∧ encoded skipped = options ∧
      encoded tail = ts ∧ afterOptions false text = some ('{' :: tail) := by
  obtain ⟨skipped, tail, htext, rfl, rfl⟩ := encoded_eq_append (by decide) h.eq
  exact ⟨skipped, tail, htext, rfl, rfl, (opens_iff htext).mp h⟩

/-! ### Arguments -/

theorem byteColumn_opened (before skipped body rest : List Char) :
    byteColumn (before ++ (skipped ++ '{' :: (body ++ rest)))
        (before.length + (skipped.length + 1) + body.length)
      = bytes before + bytes skipped + (bytes body + 1) := by
  have hsize : '{'.utf8Size = 1 := rfl
  have hline : before ++ (skipped ++ '{' :: (body ++ rest))
      = before ++ skipped ++ '{' :: body ++ rest := by simp
  have hlength : before.length + (skipped.length + 1) + body.length
      = (before ++ skipped ++ '{' :: body).length := by
    simp only [List.length_append, List.length_cons]
    omega
  rw [hline, hlength, byteColumn_front, bytes_append, bytes_append, bytes, hsize, Nat.add_comm 1]

theorem opens_unique (h : afterOptions false (before ++ '{' :: tail) = some ('{' :: tail)) :
    Opens (encoded (before ++ '{' :: tail)) options ts ↔
      options = encoded before ∧ ts = encoded tail := by
  constructor
  · intro hopens
    obtain ⟨skipped, tail', heq, rfl, rfl, htail⟩ := hopens.exists_text
    obtain ⟨-, rfl⟩ := List.cons.inj (Option.some.inj (h.symm.trans htail))
    exact ⟨by rw [List.append_cancel_right heq], rfl⟩
  · rintro ⟨rfl, rfl⟩
    exact (opens_iff rfl).mpr h

theorem exists_opens_iff (h : afterOptions false (before ++ '{' :: tail) = some ('{' :: tail))
    {q : List UInt8 → List UInt8 → Prop} :
    (∃ options ts, Opens (encoded (before ++ '{' :: tail)) options ts ∧ q options ts) ↔
      q (encoded before) (encoded tail) := by
  constructor
  · rintro ⟨options, ts, hopens, hq⟩
    obtain ⟨rfl, rfl⟩ := (opens_unique h).mp hopens
    exact hq
  · exact fun hq => ⟨_, _, (opens_unique h).mpr ⟨rfl, rfl⟩, hq⟩

/-- The text between the braces, by the bytes that stand there. -/
theorem braceBody_eq_some_iff {a : List Char} :
    braceBody 0 tail = some a ↔ ∃ more, encoded tail = encoded a ++ '}'.toUInt8 :: more ∧
      FirstReturn (encoded ('{' :: tail)) (bytes a + 1) := by
  constructor
  · intro h
    obtain ⟨rest, rfl, -⟩ := braceBody_closes h
    refine ⟨encoded rest, ?_, firstReturn_iff.mpr ⟨a, h, rfl⟩⟩
    rw [encoded_append, encoded_cons_of_isAscii (by decide)]
  · rintro ⟨more, hbytes, hreturn⟩
    obtain ⟨body, hbody, hsize⟩ := firstReturn_iff.mp hreturn
    obtain ⟨rest, rfl, -⟩ := braceBody_closes hbody
    rw [encoded_append] at hbytes
    have hlength : (encoded body).length = (encoded a).length := by
      rw [length_encoded, length_encoded]
      omega
    rw [hbody, encoded_inj (List.append_inj_left hbytes hlength)]

/-- **An argument that is opened** follows the grammar. -/
theorem follows_opened (before : List Char) {skipped : List Char} {arg : Argument}
    (h : afterOptions false (skipped ++ '{' :: tail) = some ('{' :: tail))
    (hstart : arg.start? = some (before.length + (skipped.length + 1)))
    (hstop : arg.stop? = (braceBody 0 tail).map
      fun body => before.length + (skipped.length + 1) + body.length)
    (htext : arg.text? = braceBody 0 tail) :
    arg.Follows (before ++ (skipped ++ '{' :: tail)) (bytes before) := by
  have hafter := drop_encoded_append before (skipped ++ '{' :: tail)
  have hbrace : '{'.toUInt8 :: encoded tail = encoded ('{' :: tail) :=
    (encoded_cons_of_isAscii (by decide) tail).symm
  have hplace : ∀ body, braceBody 0 tail = some body →
      byteColumn (before ++ (skipped ++ '{' :: tail))
        (before.length + (skipped.length + 1) + body.length)
        = bytes before + bytes skipped + (bytes body + 1) := by
    intro body hbody
    obtain ⟨rest, rfl, -⟩ := braceBody_closes hbody
    exact byteColumn_opened before skipped body _
  constructor
  · intro i
    have hcolumn := byteColumn_opened before skipped [] tail
    rw [hafter, exists_opens_iff h, hstart, Option.map_some, Option.some.injEq, length_encoded,
      eq_comm]
    exact Eq.congr_right hcolumn
  · intro i
    rw [hafter, exists_opens_iff h, hbrace, hstop, Option.map_map, Option.map_eq_some_iff,
      length_encoded]
    constructor
    · rintro ⟨body, hbody, rfl⟩
      exact ⟨_, firstReturn_iff.mpr ⟨body, hbody, rfl⟩, hplace body hbody⟩
    · rintro ⟨k, hreturn, rfl⟩
      obtain ⟨body, hbody, rfl⟩ := firstReturn_iff.mp hreturn
      exact ⟨body, hbody, hplace body hbody⟩
  · intro a
    rw [hafter, htext, braceBody_eq_some_iff]
    constructor
    · rintro ⟨more, hbytes, hreturn⟩
      refine ⟨encoded skipped, more, (opens_unique h).mpr ⟨rfl, hbytes.symm⟩, ?_⟩
      rwa [← hbytes, hbrace]
    · rintro ⟨options, more, hopens, hreturn⟩
      obtain ⟨-, hmore⟩ := (opens_unique h).mp hopens
      rw [hmore, hbrace] at hreturn
      exact ⟨more, hmore.symm, hreturn⟩
  · rw [hafter, exists_opens_iff h, hbrace, hstart, hstop]
    rcases hbody : braceBody 0 tail with - | body <;> simp [firstReturn_iff, hbody]
  · intro options ts n hopens hn
    rw [hafter] at hopens
    obtain ⟨rfl, rfl⟩ := (opens_unique h).mp hopens
    rw [hbrace] at hn ⊢
    exact noneMissing_of_read hn

/-- **An argument is read by the grammar.** -/
theorem follows_readArgument (before text : List Char) :
    (readArgument before.length text).Follows (before ++ text) (bytes before) := by
  by_cases hopen : ∃ tail, afterOptions false text = some ('{' :: tail)
  · obtain ⟨tail, htail⟩ := hopen
    obtain ⟨skipped, rfl, -⟩ := afterOptions_stops htail
    have hlength : (skipped ++ '{' :: tail).length - tail.length = skipped.length + 1 := by
      rw [List.length_append, List.length_cons]
      omega
    have hread : readArgument before.length (skipped ++ '{' :: tail)
        = (braceBody 0 tail).elim (.unclosed (before.length + (skipped.length + 1)))
            (.closed (before.length + (skipped.length + 1))) := by
      simp only [readArgument, htail, hlength]
      split <;> simp_all
    rw [hread]
    refine follows_opened before htail ?_ ?_ ?_ <;> cases braceBody 0 tail <;> rfl
  · have hread : readArgument before.length text = .absent := by
      rw [readArgument]
      split
      · next tail htail => exact absurd ⟨tail, htail⟩ hopen
      · rfl
    have hnone : ∀ options ts, ¬ Opens (encoded text) options ts := by
      intro options ts h
      obtain ⟨skipped, tail, -, -, -, htail⟩ := h.exists_text
      exact hopen ⟨tail, htail⟩
    rw [hread]
    constructor <;> simp [hnone, Argument.start?, Argument.stop?, Argument.text?]

/-! ### Directives -/

/-- **A command is read by the grammar.** -/
theorem takeCommand_follows (text : List Char) :
    text = (takeCommand text).1 ++ (takeCommand text).2 ∧
      encoded (takeCommand text).1 = commandOf (encoded text) := by
  have hsplit : text = text.takeWhile isLetter ++ text.dropWhile isLetter :=
    List.takeWhile_append_dropWhile.symm
  obtain ⟨htake, hdrop⟩ := takeWhile_encoded isAscii_of_isLetter text
  rw [commandOf, htake, hdrop, takeCommand]
  split
  · next rest hrest =>
      rw [hrest] at hsplit
      refine ⟨by rwa [List.append_assoc], ?_⟩
      rw [hrest, encoded_append, encoded_cons_of_isAscii (by decide),
        encoded_cons_of_isAscii (by decide)]
      simp
  · next hstar =>
      refine ⟨hsplit, ?_⟩
      rcases hrest : text.dropWhile isLetter with - | ⟨c, rest⟩
      · simp
      · obtain ⟨b, more, hbytes⟩ := List.exists_cons_of_ne_nil (utf8EncodeChar_ne_nil c)
        have hc : c ≠ '*' := by
          rintro rfl
          exact hstar rest hrest
        have hb : b ≠ '*'.toUInt8 := by
          rintro rfl
          exact toUInt8_notMem_utf8EncodeChar (by decide) hc (hbytes ▸ List.mem_cons_self)
        rw [encoded_cons, hbytes, List.cons_append, List.take_succ_cons, List.take_zero,
          List.filter_cons_of_neg (by simpa using hb), List.filter_nil, List.append_nil]

/-- **A directive is read by the grammar.** -/
theorem follows_of_mem_directives (h : d ∈ directives line) : d.Follows line := by
  obtain ⟨front, back, rfl, hat⟩ := mem_directivesFrom_iff.mp h
  rw [Nat.zero_add, directiveAt?_eq] at hat
  split at hat
  · obtain ⟨hback, hcommand⟩ := takeCommand_follows back
    rcases htake : takeCommand back with ⟨command, after⟩
    rw [htake] at hback hcommand hat
    obtain rfl := Option.some.inj hat
    subst hback
    have hsize : '\\'.utf8Size = 1 := rfl
    have hcolumn : byteColumn (front ++ '\\' :: (command ++ after)) front.length = bytes front :=
      byteColumn_front front _
    constructor
    · have hdrop := drop_encoded_append (front ++ ['\\']) (command ++ after)
      rw [List.append_assoc, List.singleton_append, bytes_append] at hdrop
      simp only [Directive.column, hcolumn, String.toList_ofList]
      rw [hcommand]
      exact congrArg commandOf hdrop.symm
    · have hfollows := follows_readArgument (front ++ '\\' :: command) after
      rw [List.append_assoc, List.cons_append, List.length_append, List.length_cons, bytes_append,
        bytes, hsize] at hfollows
      simp only [Directive.column, hcolumn, String.toList_ofList]
      rw [Nat.add_assoc, Nat.add_assoc, Nat.add_comm 1 command.length]
      exact hfollows
  · cases hat

theorem isSome_directiveAt?_iff {pos : Nat} :
    (directiveAt? pos text).isSome = true ↔ text.head?.any isLetter = true := by
  rw [directiveAt?_eq]
  split <;> simp_all

/-- **Directives start where the grammar lets them**, and everywhere there. -/
theorem mem_columns_iff :
    i ∈ (directives line).map (·.column line) ↔ StartsCommand (encoded line) i := by
  rw [List.mem_map]
  constructor
  · rintro ⟨d, hd, rfl⟩
    obtain ⟨front, back, rfl, hat⟩ := mem_directivesFrom_iff.mp hd
    have hletter := isSome_directiveAt?_iff.mp (Option.isSome_iff_exists.mpr ⟨d, hat⟩)
    rcases back with - | ⟨c, back⟩
    · cases hletter
    · have hascii := isAscii_of_isLetter c hletter
      refine ⟨c.toUInt8, encoded back, ?_, by rwa [onByte_toUInt8 hascii]⟩
      rw [Directive.column, (start_of_directiveAt? hat).1, Nat.zero_add, byteColumn_front,
        drop_encoded_append, encoded_cons_of_isAscii (by decide), encoded_cons_of_isAscii hascii]
  · rintro ⟨b, rest, hdrop, hletter⟩
    obtain ⟨c, hc, hascii, rfl⟩ := exists_of_onByte isAscii_of_isLetter hletter
    have hbytes := List.take_append_drop i (encoded line)
    rw [hdrop] at hbytes
    obtain ⟨front, more, rfl, hfront, hmore⟩ := encoded_eq_append (by decide) hbytes.symm
    obtain ⟨none', back, rfl, hnone, -⟩ := @encoded_eq_append more c [] rest hascii hmore
    obtain rfl := encoded_eq_nil_iff.mp hnone
    have hi : bytes front = i := by
      have hlength := congrArg List.length hdrop
      rw [← length_encoded, hfront, List.length_take]
      rw [List.length_drop, List.length_cons] at hlength
      omega
    have hletter : (c :: back).head?.any isLetter = true := hc
    obtain ⟨d, hat⟩ := Option.isSome_iff_exists.mp (isSome_directiveAt?_iff.mpr hletter)
    refine ⟨d, mem_directivesFrom_iff.mpr ⟨front, _, rfl, hat⟩, ?_⟩
    rw [Directive.column, (start_of_directiveAt? hat).1, Nat.zero_add, byteColumn_front, hi]

theorem pairwise_columns (line : List Char) :
    ((directives line).map (·.column line)).Pairwise (· < ·) := by
  rw [List.pairwise_map]
  refine (pairwise_directivesFrom 0 line).imp_of_mem fun ha _ hab => byteColumn_lt hab ?_
  have hlast := (standing_directivesFrom ha).lt_last
  omega

/-! ### Cutting a line -/

/-- The two braces of an argument in its line. -/
theorem exists_braces (h : d ∈ directives line)
    (hstop : d.argument.stop?.map (byteColumn line) = some j) :
    ∃ front argument rest, line = front ++ argument ++ '}' :: rest ∧
      d.argument.text? = some argument ∧ bytes (front ++ argument) = j ∧
      d.argument.start?.map (byteColumn line) = some (bytes front) := by
  rcases harg : d.argument with - | start | ⟨start, argument⟩
  · rw [harg] at hstop
    cases hstop
  · rw [harg] at hstop
    cases hstop
  · obtain ⟨front, written, rest, rfl, -, -, rfl, -⟩ := exists_of_mem_directives h harg
    have hline : front ++ '\\' :: (written ++ (argument ++ '}' :: rest))
        = front ++ '\\' :: written ++ argument ++ '}' :: rest := by simp
    have hopen : front.length + 1 + written.length = (front ++ '\\' :: written).length := by
      simp only [List.length_append, List.length_cons]
      omega
    rw [harg, Argument.stop?, Option.map_some, hopen, ← List.length_append, hline,
      byteColumn_front, Option.some.injEq] at hstop
    refine ⟨front ++ '\\' :: written, argument, rest, hline, rfl, hstop, ?_⟩
    rw [Argument.start?, Option.map_some, hopen, hline, List.append_assoc _ argument,
      byteColumn_front]

end LatexIndex.Markup

namespace LatexIndex.Cursor

open Text Markup

variable {line text before word : List Char} {d : Directive} {context : Context}
  {start position : Nat}

/-- The offset after the last comma, or zero. -/
def afterComma (xs : List UInt8) : Nat :=
  xs.length - (xs.reverse.takeWhile (· ≠ ','.toUInt8)).length

/-- The word at the end of a text and the number of characters before it, cut out by
offsets: the argument from its own, the word from after the last comma if it is one of
a list, and what is before the word without its blanks. -/
def cutWord? (before : List Char) (argStart : Nat) (isList : Bool) : Option (List Char × Nat) := do
  let argument ← slice? before argStart (bytes before)
  let wordStart := argStart + if isList then afterComma (encoded argument) else 0
  let word ← slice? before wordStart (bytes before)
  let trimmed := trimStart word
  let left ← slice? before 0 (wordStart + (bytes word - bytes trimmed))
  return (trimmed, left.length)

theorem afterComma_of_split {xs ys : List UInt8} (h : ','.toUInt8 ∉ ys) :
    afterComma ys = 0 ∧ afterComma (xs ++ ','.toUInt8 :: ys) = xs.length + 1 := by
  have hall : ∀ b ∈ ys.reverse, decide (b ≠ ','.toUInt8) = true := by
    intro b hb
    rw [decide_eq_true_eq]
    rintro rfl
    exact h (List.mem_reverse.mp hb)
  constructor
  · rw [afterComma, List.takeWhile_eq_self_iff.mpr hall, List.length_reverse, Nat.sub_self]
  · rw [afterComma, List.reverse_append, List.reverse_cons, List.append_assoc,
      List.takeWhile_append_of_pos hall, List.singleton_append,
      List.takeWhile_cons_of_neg (by simp), List.append_nil, List.length_reverse,
      List.length_append, List.length_cons]
    omega

theorem afterLastComma_split (text : List Char) :
    text = afterLastComma text ∨ ∃ front, text = front ++ ',' :: afterLastComma text := by
  have hsplit := List.takeWhile_append_dropWhile (p := (· != ',')) (l := text.reverse)
  rcases hdrop : text.reverse.dropWhile (· != ',') with - | ⟨c, rest⟩
  · rw [hdrop, List.append_nil] at hsplit
    exact .inl (by rw [afterLastComma, hsplit, List.reverse_reverse])
  · have hc := List.head?_dropWhile_not (· != ',') text.reverse
    rw [hdrop] at hc
    obtain rfl : c = ',' := by simpa using hc
    refine .inr ⟨rest.reverse, ?_⟩
    rw [hdrop] at hsplit
    have htext := congrArg List.reverse hsplit
    rw [List.reverse_reverse, List.reverse_append, List.reverse_cons, List.append_assoc] at htext
    exact htext.symm

/-- The last comma of the bytes is that of the characters. -/
theorem afterComma_encoded (text : List Char) :
    afterComma (encoded text) = bytes text - bytes (afterLastComma text) := by
  have hcomma : ','.toUInt8 ∉ encoded (afterLastComma text) :=
    fun h => comma_notMem_afterLastComma text ((toUInt8_mem_encoded_iff (by decide)).mp h)
  have hsize : ','.utf8Size = 1 := rfl
  rcases afterLastComma_split text with h | ⟨front, h⟩
  · rw [← h] at hcomma ⊢
    rw [(@afterComma_of_split [] _ hcomma).1, Nat.sub_self]
  · have hbytes : bytes text = bytes front + (1 + bytes (afterLastComma text)) := by
      conv_lhs => rw [h, bytes_append, bytes, hsize]
    have hencoded :
        encoded text = encoded front ++ ','.toUInt8 :: encoded (afterLastComma text) := by
      conv_lhs => rw [h, encoded_append, encoded_cons_of_isAscii (by decide)]
    rw [hencoded, (afterComma_of_split hcomma).2, length_encoded, hbytes]
    omega

theorem bytes_le_of_ends (h : word <:+ text) : bytes word ≤ bytes text := by
  obtain ⟨front, rfl⟩ := h
  rw [bytes_append]
  exact Nat.le_add_left _ _

theorem slice?_ends (h : word <:+ text) :
    slice? text (bytes text - bytes word) (bytes text) = some word ∧
      slice? text 0 (bytes text - bytes word) = some (text.take (text.length - word.length)) := by
  obtain ⟨front, rfl⟩ := h
  have hfront : bytes (front ++ word) - bytes word = bytes front := by
    rw [bytes_append, Nat.add_sub_cancel]
  rw [hfront, List.length_append, Nat.add_sub_cancel, List.take_left]
  exact ⟨slice?_rest front word, slice?_append [] front word⟩

/-- **The word being typed can be cut out**, and starts where it is said to. -/
theorem cutWord?_eq (before : List Char) (start : Nat) (name : String) (context : Context) :
    cutWord? before (byteColumn before start) (takesList name context) =
      some (wordOf name context (before.drop start),
        before.length - (wordOf name context (before.drop start)).length) := by
  have hstart : byteColumn before start = bytes before - bytes (before.drop start) := by
    have hbytes := bytes_append (before.take start) (before.drop start)
    rw [List.take_append_drop] at hbytes
    rw [hbytes, Nat.add_sub_cancel]
    rfl
  have hargument : before.drop start <:+ before := List.drop_suffix start before
  generalize before.drop start = argument at hargument hstart ⊢
  -- what of the argument the word is in
  obtain ⟨word, hword, hends, hoffset⟩ : ∃ word,
      trimStart word = wordOf name context argument ∧ word <:+ argument ∧
        (if takesList name context then afterComma (encoded argument) else 0)
          = bytes argument - bytes word := by
    by_cases hlist : takesList name context = true
    · refine ⟨afterLastComma argument, by rw [wordOf, if_pos hlist],
        afterLastComma_ends argument, ?_⟩
      rw [if_pos hlist, afterComma_encoded]
    · refine ⟨argument, by rw [wordOf, if_neg hlist], List.suffix_rfl, ?_⟩
      rw [if_neg hlist, Nat.sub_self]
  have htrimmed : trimStart word <:+ word := List.dropWhile_suffix isBlank
  have hwordLe := bytes_le_of_ends hends
  have hargumentLe := bytes_le_of_ends hargument
  have htrimmedLe := bytes_le_of_ends htrimmed
  have hwordStart : bytes before - bytes argument + (bytes argument - bytes word)
      = bytes before - bytes word := by omega
  have hleft : bytes before - bytes word + (bytes word - bytes (trimStart word))
      = bytes before - bytes (trimStart word) := by omega
  rw [← hword]
  simp only [cutWord?, hstart, (slice?_ends hargument).1, Option.bind_eq_bind, Option.bind_some,
    hoffset, hwordStart, (slice?_ends (hends.trans hargument)).1, hleft,
    (slice?_ends (htrimmed.trans (hends.trans hargument))).2, Option.pure_def,
    List.length_take, Nat.min_eq_left (Nat.sub_le _ _)]

end LatexIndex.Cursor

namespace LatexIndex.Markup

open Text Cursor

variable {line : List Char} {d : Directive}

/-- The offsets of a directive can be cut at. -/
structure Directive.Cuts (line : List Char) (d : Directive) : Prop where
  /-- The argument between its braces. -/
  argument : ∀ i j, d.argument.start?.map (byteColumn line) = some i →
    d.argument.stop?.map (byteColumn line) = some j →
    ∃ argument, d.argument.text? = some argument ∧ slice? line i j = some argument
  /-- The line with its comment, from the closing brace on. -/
  rest : ∀ comment j, d.argument.stop?.map (byteColumn line) = some j →
    ∃ rest, slice? (line ++ comment) j (bytes (line ++ comment)) = some ('}' :: rest)
  /-- The word being typed, where the line ends at the cursor. -/
  word : ∀ start context, d.argument = .unclosed start →
    cutWord? line (byteColumn line start) (takesList d.name context) =
      some (wordOf d.name context (line.drop start),
        line.length - (wordOf d.name context (line.drop start)).length)

theorem cuts_of_mem_directives (h : d ∈ directives line) : d.Cuts line := by
  constructor
  · intro i j hi hj
    obtain ⟨front, argument, rest, rfl, htext, rfl, hstart⟩ := exists_braces h hj
    obtain rfl := Option.some.inj (hstart.symm.trans hi)
    exact ⟨argument, htext, slice?_append front argument _⟩
  · intro comment j hj
    obtain ⟨front, argument, rest, rfl, -, rfl, -⟩ := exists_braces h hj
    refine ⟨rest ++ comment, slice?_eq_some_iff.mpr ⟨front ++ argument, [], ?_, rfl, ?_⟩⟩
    · rw [List.append_nil, List.append_assoc, List.cons_append]
    · rw [List.append_assoc _ _ comment, List.cons_append]
  · intro start context _
    exact cutWord?_eq line start d.name context

/-- **The directives of a line are those of the grammar.**  There is one for each
backslash before a letter, in order; its command and its argument are what the grammar
says of the bytes there; and its offsets can be cut at.  The same holds of a line
without its comment, and of what is left of the cursor, which are cut off between
characters themselves. -/
theorem directives_follow_grammar (line : List Char) :
    ((directives line).map (·.column line)).Pairwise (· < ·) ∧
    (∀ i, i ∈ (directives line).map (·.column line) ↔ StartsCommand (encoded line) i) ∧
    (∀ d ∈ directives line, d.Follows line ∧ d.Cuts line) ∧
    (∃ comment, stripComment line ++ comment = line) ∧
    ∀ position, slice? line 0 (byteColumn line position) = some (line.take position) := by
  refine ⟨pairwise_columns line, fun i => mem_columns_iff,
    fun d hd => ⟨follows_of_mem_directives hd, cuts_of_mem_directives hd⟩,
    stripComment_begins line, fun position => ?_⟩
  refine slice?_eq_some_iff.mpr ⟨[], line.drop position, ?_, rfl, rfl⟩
  rw [List.nil_append, List.take_append_drop]

end LatexIndex.Markup
