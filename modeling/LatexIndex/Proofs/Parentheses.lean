/-
LatexIndex/Proofs/Parentheses.lean

Entries in braces and entries in parentheses.

The search for the end of a body counts braces in both cases, so it comes to the
end of a record in parentheses as it does in braces, unless it meets a `)` before
that while no brace is open (`closedBody?_parenthesis_iff`).  Where such a `)` can
stand follows the written form: keys and names have none, and in a value in
braces a brace is open.  A value in quotes is left: quotes mean nothing to the
search, and a `)` outside the inner braces of such a value ends the entry.  So
the two delimiters can be exchanged exactly if no value in quotes has one
(`delimiters_interchangeable`).
-/
import LatexIndex.Proofs.Databases

namespace LatexIndex.Bib

open Text

section

variable {text text' rest : List Char} {depth depth' depth'' : Nat} {c : Char}

/-! ### Parentheses outside braces -/

/-- Whether no `)` of a text is outside all braces, those apart that a backslash
takes along. -/
def parenFree (depth : Nat) : List Char → Bool
  | [] => true
  | '\\' :: _ :: rest => parenFree depth rest
  | c :: rest => !(c == ')' && depth == 0) && parenFree (depthStep depth c) rest

theorem parenFree_cons (hc : c ≠ '\\') :
    parenFree depth (c :: text) = (!(c == ')' && depth == 0) && parenFree (depthStep depth c) text) :=
  parenFree.eq_3 depth c text fun _ _ heq => absurd heq hc

theorem closedBody?_parenthesis_cons (hc : c ≠ '\\') :
    closedBody? ')' depth (c :: text) =
      if c = ')' ∧ depth = 0 then some []
      else (closedBody? ')' (depthStep depth c) text).map (c :: ·) := by
  rw [closedBody?.eq_3 ')' depth c text fun _ _ heq => absurd heq hc, depthStep]
  by_cases hopen : c = '{'
  · simp [hopen]
  by_cases hbrace : c = '}'
  · -- a brace that was not opened is passed over
    rcases Nat.eq_zero_or_pos depth with rfl | hdepth
    · simp [hbrace]
    · simp [hbrace, hdepth]
  · simp [hopen, hbrace]

/-- **The end of a body in parentheses** is where the end of the body in braces
would be, exactly if no `)` outside all braces comes before it. -/
theorem Goes.closedBody?_parenthesis_iff (h : Goes depth depth' text) (hdepth : depth' = 0)
    (rest : List Char) :
    closedBody? ')' depth (text ++ ')' :: rest) = some text ↔ parenFree depth text = true := by
  induction h with
  | nil depth =>
      rw [hdepth, List.nil_append, closedBody?_parenthesis_cons (by decide)]
      simp [parenFree]
  | escape _ ih =>
      rw [List.cons_append, List.cons_append, closedBody?, parenFree, ← ih hdepth]
      simp
  | @cons depth depth' c text hc hclose _ ih =>
      rw [List.cons_append, closedBody?_parenthesis_cons hc, parenFree_cons hc, Bool.and_eq_true,
        ← ih hdepth]
      by_cases hend : c = ')' ∧ depth = 0
      · simp [hend]
      · have hfree : (c == ')' && depth == 0) = false := by
          simpa using hend
        rw [if_neg hend, hfree]
        simp

/-- Of two texts one after the other each is looked at by itself. -/
theorem Goes.parenFree_append (h : Goes depth depth' text) (rest : List Char) :
    parenFree depth (text ++ rest) = (parenFree depth text && parenFree depth' rest) := by
  induction h with
  | nil depth => rfl
  | escape _ ih => exact ih
  | cons hc hclose _ ih =>
      rw [List.cons_append, parenFree_cons hc, parenFree_cons hc, ih, Bool.and_assoc]

/-- Inside braces no `)` is outside all braces. -/
theorem Goes.parenFree_inside (h : Goes depth depth' text) : parenFree (depth + 1) text = true := by
  induction h with
  | nil depth => rfl
  | escape _ ih => exact ih
  | cons hc hclose _ ih =>
      rw [parenFree_cons hc, depthStep_succ hclose, ih]
      simp

theorem parenFree_of_notMem (h : ')' ∉ text) : parenFree depth text = true := by
  fun_induction parenFree depth text with
  | case1 => rfl
  | case2 depth c rest ih =>
      exact ih fun hmem => h (List.mem_cons_of_mem _ (List.mem_cons_of_mem c hmem))
  | case3 depth c rest _ ih =>
      obtain ⟨hc, hrest⟩ := not_or.mp (mt List.mem_cons.mpr h)
      rw [ih hrest, beq_eq_false_iff_ne.mpr (Ne.symm hc)]
      rfl

theorem parenFree_concat (hc : c ≠ ')') : parenFree depth (text ++ [c]) = parenFree depth text := by
  fun_induction parenFree depth text with
  | case1 depth => exact parenFree_of_notMem (by simpa using Ne.symm hc)
  | case2 depth d rest ih => exact ih
  | case3 depth d rest hpair ih =>
      rcases rest with - | ⟨e, rest⟩
      · -- one character more, which a backslash may take along
        by_cases hd : d = '\\'
        · rw [hd]
          rfl
        · rw [List.singleton_append, parenFree_cons hd, parenFree_of_notMem (by simpa using hc.symm)]
          rfl
      · have hd : d ≠ '\\' := fun heq => hpair e rest heq rfl
        rw [List.cons_append, parenFree_cons hd, ih]

end

/-! ### Records in either delimiter -/

/-- The two ways to delimit an entry. -/
inductive Bracket where
  | braces
  | parentheses
  deriving DecidableEq, Repr

/-- The delimiter before the body. -/
def Bracket.opener : Bracket → Char
  | braces => '{'
  | parentheses => '('

/-- The delimiter after the body. -/
def Bracket.closer : Bracket → Char
  | braces => '}'
  | parentheses => ')'

theorem Bracket.closerOf?_opener (b : Bracket) : closerOf? b.opener = some b.closer := by
  cases b <;> rfl

namespace Written

variable {f : Field} {r : Record} {rest : List Char} {line start : Nat}

/-- A value in quotes has no `)` outside its inner braces. -/
def Field.Parenless (f : Field) : Prop :=
  f.quoting = .quotes → parenFree 0 f.value = true

instance (f : Field) : Decidable f.Parenless :=
  inferInstanceAs (Decidable (_ → _))

theorem Gap.parenFree (g : Gap) : Bib.parenFree 0 g.text = true := by
  refine parenFree_of_notMem fun hmem => ?_
  exact g.forall (P := (· ≠ ')')) (by decide) (by decide) (by decide) _ hmem rfl

/-- Between its delimiters a value has a `)` outside all braces exactly if it is
in quotes and has one itself. -/
theorem Field.parenFree_wrap (hf : f.Closes) :
    parenFree 0 (f.quoting.wrap f.value) = true ↔ f.Parenless := by
  unfold Field.Parenless
  rcases hquoting : f.quoting with - | -
  · have hhangs : hangs f.value = false := by
      rw [hangs_eq, hf hquoting]
      rfl
    have hvalue : Goes 0 0 f.value :=
      goes_of_unescaped f.value_unescaped hhangs f.value_balanced
    have hinside : Goes 1 1 f.value :=
      goes_of_unescaped f.value_unescaped hhangs (depthAfter?_succ f.value_balanced)
    refine iff_of_true ?_ (by simp)
    show parenFree 1 (f.value ++ ['}']) = true
    rw [hinside.parenFree_append, hvalue.parenFree_inside]
    rfl
  · show parenFree 0 (f.value ++ ['"']) = true ↔ _
    rw [parenFree_concat (by decide)]
    simp

theorem Field.parenFree_text (hf : f.Closes) (hname : ')' ∉ f.name) :
    parenFree 0 f.text = true ↔ f.Parenless := by
  have hsign : parenFree 0 (f.name ++ f.beforeSign.text ++ ['=']) = true := by
    refine parenFree_of_notMem ?_
    have hgap : ')' ∉ f.beforeSign.text := fun hmem =>
      f.beforeSign.forall (P := (· ≠ ')')) (by decide) (by decide) (by decide) _ hmem rfl
    simp [hname, hgap]
  rw [Field.text, (f.beforeName.goes.append f.goes_name).parenFree_append,
    f.beforeName.goes.parenFree_append,
    (f.beforeValue.goes.append (Field.goes_value hf)).parenFree_append,
    f.beforeValue.goes.parenFree_append, f.beforeName.parenFree, f.beforeValue.parenFree,
    f.afterValue.parenFree, hsign]
  simpa using Field.parenFree_wrap hf

namespace Record

/-- A record between the given delimiters. -/
def textIn (b : Bracket) (r : Record) : List Char :=
  '@' :: (r.entryType ++ r.afterType.text ++ b.opener :: (r.body ++ [b.closer]))

theorem parenFree_commas {parts : List (List Char)} (h : ∀ part ∈ parts, Goes 0 0 part) :
    parenFree 0 (parts.flatMap (',' :: ·)) = true ↔ ∀ part ∈ parts, parenFree 0 part = true := by
  induction parts with
  | nil => simp [parenFree]
  | cons part parts ih =>
      obtain ⟨hpart, hparts⟩ := List.forall_mem_cons.mp h
      have hcomma : Goes 0 0 (',' :: part) := .cons (by decide) (by decide) hpart
      rw [List.flatMap_cons, hcomma.parenFree_append, parenFree_cons (by decide), Bool.and_eq_true,
        ih hparts, List.forall_mem_cons]
      rfl

/-- **Where a body has a `)` outside all braces**: in a value in quotes. -/
theorem parenFree_body (hr : ∀ f ∈ r.fields, f.Closes) (hkey : ')' ∉ r.key)
    (hnames : ∀ f ∈ r.fields, ')' ∉ f.name) :
    parenFree 0 r.body = true ↔ ∀ f ∈ r.fields, f.Parenless := by
  have hparts : ∀ part ∈ r.parts, Goes 0 0 part :=
    forall_parts (fun f hf => Field.goes (hr f hf)) Gap.goes
  have hfront : ')' ∉ r.beforeKey.text ++ r.key ++ r.afterKey.text := fun hmem =>
    r.beforeKey.forall_between (P := (· ≠ ')')) r.afterKey
      (fun c hc heq => hkey (heq ▸ hc)) (by decide) (by decide) (by decide) _ hmem rfl
  rw [body, (goes_front r).parenFree_append, parenFree_of_notMem hfront, Bool.true_and,
    parenFree_commas hparts]
  constructor
  · intro h f hf
    refine (Field.parenFree_text (hr f hf) (hnames f hf)).mp (h f.text ?_)
    exact List.mem_append_left _ (List.mem_map_of_mem hf)
  · intro h
    exact forall_parts (fun f hf => (Field.parenFree_text (hr f hf) (hnames f hf)).mpr (h f hf))
      Gap.parenFree

end Record

/-! ### Blocks in either delimiter -/

/-- What the block at an `@` holds is what the search for its end gives. -/
theorem head?_blocksFrom (b : Bracket) (r : Record) (rest : List Char) :
    (blocksFrom 0 line start (r.textIn b ++ rest)).head? =
      some ⟨line, start, String.ofList (asciiLower r.entryType),
        (closedBody? b.closer 0 (r.body ++ b.closer :: rest)).elim .unbalanced .body⟩ := by
  have hgap : r.afterType.text.all isAsciiBlank = true :=
    List.all_eq_true.mpr (r.afterType.forall (by decide) (by decide) (by decide))
  have htext : r.textIn b ++ rest = '@' ::
      (r.entryType ++ r.afterType.text ++ b.opener :: (r.body ++ b.closer :: rest)) := by
    simp [Record.textIn]
  rw [htext, blocksFrom]
  simp only [beq_self_eq_true, if_true,
    opening?_append r.entryType_ne_nil r.entryType_chars hgap b.closerOf?_opener]
  rcases closedBody? b.closer 0 (r.body ++ b.closer :: rest) with - | body <;> rfl

variable {b : Bracket} {before after : Free}

/-- A record alone in free text, whose body is ended by its own delimiter, is one
block. -/
theorem blocks_textIn
    (h : closedBody? b.closer 0 (r.body ++ b.closer :: after.text) = some r.body) :
    blocks (before.text ++ r.textIn b ++ after.text)
      = [r.block (before.text.count '\n') before.text.length] := by
  have hgap : r.afterType.text.all isAsciiBlank = true :=
    List.all_eq_true.mpr (r.afterType.forall (by decide) (by decide) (by decide))
  have hafter : ∀ line start, blocksFrom 0 line start after.text = [] := by
    intro line start
    rw [← List.append_nil after.text, blocksFrom_free after.plain]
    rfl
  rw [blocks, List.append_assoc, blocksFrom_free before.plain, Nat.zero_add, Nat.zero_add,
    Record.textIn, blocksFrom_closed r.entryType_ne_nil r.entryType_chars hgap b.closerOf?_opener h,
    hafter]
  rfl

theorem read_textIn (path : Path)
    (h : closedBody? b.closer 0 (r.body ++ b.closer :: after.text) = some r.body) :
    read (String.ofList (before.text ++ r.textIn b ++ after.text)) path
      = ([r.entry path (before.text.count '\n')], []) := by
  rw [read, String.toList_ofList, blocks_textIn h, entriesFrom, read_block,
    if_neg List.not_mem_nil]
  rfl

/-- **Braces and parentheses around an entry can be exchanged**, exactly as long
as no value in quotes has a `)` outside its inner braces.

In braces a record is read back whatever its values hold.  In parentheses it is
read back if no value in quotes has such a `)`; if one has, the entry ends there
and what is read is not the block of the record.  The closing delimiters inside
values in braces never end an entry. -/
theorem delimiters_interchangeable (r : Record) (before after : Free) (path : Path)
    (hcloses : ∀ f ∈ r.fields, f.Closes) (hkey : ')' ∉ r.key)
    (hnames : ∀ f ∈ r.fields, ')' ∉ f.name) :
    read (String.ofList (before.text ++ r.textIn .braces ++ after.text)) path
      = ([r.entry path (before.text.count '\n')], []) ∧
    ((∀ f ∈ r.fields, f.Parenless) →
      read (String.ofList (before.text ++ r.textIn .parentheses ++ after.text)) path
        = ([r.entry path (before.text.count '\n')], [])) ∧
    (blocks (before.text ++ r.textIn .parentheses ++ after.text)
        = blocks (before.text ++ r.textIn .braces ++ after.text) ↔
      ∀ f ∈ r.fields, f.Parenless) := by
  have hbraces : closedBody? '}' 0 (r.body ++ '}' :: after.text) = some r.body :=
    Record.closedBody?_body hcloses after.text
  have hends : closedBody? ')' 0 (r.body ++ ')' :: after.text) = some r.body ↔
      ∀ f ∈ r.fields, f.Parenless := by
    rw [(Record.goes_body hcloses).closedBody?_parenthesis_iff rfl,
      Record.parenFree_body hcloses hkey hnames]
  refine ⟨read_textIn path hbraces, fun h => read_textIn path (hends.mpr h), ?_⟩
  rw [← hends, @blocks_textIn r .braces before after hbraces]
  constructor
  · -- the block is the same only if the search came to the same end
    intro h
    have hhead := congrArg List.head? h
    rw [blocks, List.append_assoc, blocksFrom_free before.plain, head?_blocksFrom] at hhead
    rcases hbody : closedBody? ')' 0 (r.body ++ ')' :: after.text) with - | body
    · simp [Bracket.closer, hbody, Record.block] at hhead
    · simpa [Bracket.closer, hbody, Record.block] using hhead
  · exact fun h => @blocks_textIn r .parentheses before after h

/-- A record with a `)` in each of its values: in braces, taken along by a
backslash, and inside the inner braces of a value in quotes. -/
def parenthesised : Record where
  entryType := "Online".toList
  key := "p".toList
  fields :=
    [{ name := "TITLE".toList, value := "a) \x7bb)\x7d".toList, quoting := .braces
       beforeName := { text := ['\t'] }, beforeSign := { text := ['\t'] }
       beforeValue := { text := ['\t'] }, afterValue := { text := ['\t'] } },
     { name := "Author".toList, value := "c\\) \x7bd)\x7d".toList, quoting := .quotes
       beforeName := { text := ['\t'] }, beforeSign := { text := ['\t'] }
       beforeValue := { text := ['\t'] }, afterValue := { text := ['\t'] } }]
  afterType := { text := ['\t'] }
  beforeKey := { text := ['\t'] }
  afterKey := { text := ['\t'] }
  afterLastComma := none

theorem delimiters_interchangeable_escaped :
    ((∀ f ∈ parenthesised.fields, f.Closes) ∧ ')' ∉ parenthesised.key ∧
      (∀ f ∈ parenthesised.fields, ')' ∉ f.name) ∧ ∀ f ∈ parenthesised.fields, f.Parenless) ∧
    read ("@Online\t\x7b\tp\t,\tTITLE\t=\t\x7ba) \x7bb)\x7d\x7d\t," ++
        "\tAuthor\t=\t\"c\\) \x7bd)\x7d\"\t\x7d") ⟨"r.bib"⟩
      = ([⟨"p", "online", ⟨"r.bib"⟩, 0, some "a) b)", some "c\\) d)"⟩], []) ∧
    read ("@Online\t(\tp\t,\tTITLE\t=\t\x7ba) \x7bb)\x7d\x7d\t," ++
        "\tAuthor\t=\t\"c\\) \x7bd)\x7d\"\t)") ⟨"r.bib"⟩
      = ([⟨"p", "online", ⟨"r.bib"⟩, 0, some "a) b)", some "c\\) d)"⟩], []) := by
  have hcloses : ∀ f ∈ parenthesised.fields, f.Closes := by decide
  have hkey : ')' ∉ parenthesised.key := by decide
  have hnames : ∀ f ∈ parenthesised.fields, ')' ∉ f.name := by decide
  have hparenless : ∀ f ∈ parenthesised.fields, f.Parenless := by decide
  obtain ⟨hbraces, hparentheses, -⟩ := delimiters_interchangeable parenthesised { text := [] }
    { text := [] } ⟨"r.bib"⟩ hcloses hkey hnames
  refine ⟨⟨hcloses, hkey, hnames, hparenless⟩, ?_, ?_⟩
  · refine Eq.trans ?_ (hbraces.trans ?_)
    · decide +kernel
    · decide +kernel
  · refine Eq.trans ?_ ((hparentheses hparenless).trans ?_)
    · decide +kernel
    · decide +kernel

/-- In parentheses a `)` in a value in quotes ends the entry, and the rest of the
value is lost. -/
theorem quoted_parenthesis_ends_entry :
    read "@misc\x7bk, title = \"a) b\"\x7d" ⟨"r.bib"⟩
      = ([⟨"k", "misc", ⟨"r.bib"⟩, 0, some "a) b", none⟩], []) ∧
    read "@misc(k, title = \"a) b\")" ⟨"r.bib"⟩
      = ([⟨"k", "misc", ⟨"r.bib"⟩, 0, some "a", none⟩], []) := by
  decide +kernel

end Written

end LatexIndex.Bib
