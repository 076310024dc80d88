/-
LatexIndex/Proofs/Recovery.lean

Reading on after a broken block.

A block that nothing closes is passed over up to the next line that begins, after
spaces and tabs, with an `@`.  Reading goes on there as if the text began there:
the reader of blocks carries nothing along but the place it has come to
(`blocksFrom_down`), a broken block uses up no key, and so entries and warnings
are those of the rest of the text, further down (`read_after_broken`).

The place itself is where the first line after the broken `@` begins a block.
The text between them is searched one character after the other, and a line that
begins none is gone over (`untilNextBlock?_feed`).
-/
import LatexIndex.Proofs.Databases
import Mathlib.Data.List.TakeWhile

namespace LatexIndex

/-- The same warning, `n` lines further down. -/
def Warning.down (n : Nat) (w : Warning) : Warning :=
  { w with line := w.line.map (n + ·) }

namespace Bib

open Text

section

variable {path : Path} {seen : List String} {text rest : List Char} {c : Char}

/-! ### Further down -/

/-- The same entry, `n` lines further down. -/
def Entry.down (n : Nat) (e : Entry) : Entry :=
  { e with line := n + e.line }

/-- The same block, `n` lines and `k` characters further down. -/
def Block.down (n k : Nat) (b : Block) : Block :=
  { b with line := n + b.line, start := k + b.start }

/-- The reader of blocks knows of the text before it only where it has come to. -/
theorem blocksFrom_down (n k pass line start : Nat) (text : List Char) :
    blocksFrom pass (n + line) (k + start) text
      = (blocksFrom pass line start text).map (Block.down n k) := by
  induction text generalizing pass line start with
  | nil => rfl
  | cons c rest ih =>
      have hline : (if c == '\n' then n + line + 1 else n + line)
          = n + (if c == '\n' then line + 1 else line) := by
        split <;> rfl
      rw [blocksFrom.eq_def, blocksFrom.eq_def pass line]
      simp only [hline, Nat.add_assoc k start 1, ih]
      cases pass with
      | succ pass => rfl
      | zero =>
          dsimp only
          split
          · rcases opening? rest with - | ⟨entryType, closer, skipped, inside⟩
            · rfl
            · dsimp only
              rcases closedBody? closer 0 inside with - | body
              · -- the block is broken, and what follows depends on where the next one is
                rcases untilNextBlock? rest with - | skipped <;> rfl
              · rfl
          · rfl

/-- What a block comes to does not depend on where it stands, its line apart. -/
theorem Block.read_down (n k : Nat) (b : Block) :
    (b.down n k).read path seen = (b.read path seen).map (Except.map (Entry.down n)) := by
  rcases b with ⟨line, start, entryType, content⟩
  cases content with
  | unbalanced => rfl
  | body text =>
      show (Block.mk (n + line) (k + start) entryType (.body text)).read path seen = _
      by_cases hkeyless : isKeylessType entryType = true
      · simp [Block.read, hkeyless]
      by_cases hempty : (splitKey text).1 = ""
      · simp [Block.read, hkeyless, hempty, Except.map]
      by_cases hseen : (splitKey text).1 ∈ seen
      · simp [Block.read, hkeyless, hempty, hseen, Except.map]
      · simp [Block.read, hkeyless, hempty, hseen, Except.map, entryOf, Entry.down]

/-- **Entries and warnings of blocks further down** are further down
themselves. -/
theorem entriesFrom_down (n k : Nat) (blocks : List Block) :
    entriesFrom path seen (blocks.map (Block.down n k))
      = ((entriesFrom path seen blocks).1.map (Entry.down n),
        (entriesFrom path seen blocks).2.map (Warning.down n)) := by
  induction blocks generalizing seen with
  | nil => rfl
  | cons b more ih =>
      rw [List.map_cons, entriesFrom, entriesFrom, Block.read_down]
      rcases b.read path seen with - | fault | entry
      · exact ih
      · simp only [Option.map_some, Except.map, ih]
        rfl
      · -- the key that is used up is the same
        have hkey : (entry.down n).key = entry.key := rfl
        simp only [Option.map_some, Except.map, hkey, ih]
        rfl

/-! ### The next line that begins a block -/

/-- A line with something in it that is neither a space nor a tab begins a block
or does not, whatever follows. -/
theorem beginsBlock_append (h : ∃ c ∈ text, c ≠ ' ' ∧ c ≠ '\t') (rest : List Char) :
    beginsBlock (text ++ rest) = beginsBlock text := by
  obtain ⟨c, hc, hspace, htab⟩ := h
  have hne : text.dropWhile (fun c => c == ' ' || c == '\t') ≠ [] := by
    intro hnil
    have hall := List.dropWhile_eq_nil_iff.mp hnil c hc
    simp [hspace, htab] at hall
  rw [beginsBlock, beginsBlock, List.dropWhile_append, if_neg (by simpa using hne)]
  rcases hdrop : text.dropWhile (fun c => c == ' ' || c == '\t') with - | ⟨d, more⟩
  · exact absurd hdrop hne
  · rfl

theorem not_beginsBlock (h : '@' ∉ text) : beginsBlock text = false := by
  rw [beginsBlock, beq_eq_false_iff_ne]
  intro hhead
  exact h (List.dropWhile_sublist _ |>.mem (List.mem_of_head? hhead))

/-- No line of a text begins a block, the first apart. -/
def BlockFree (text : List Char) : Prop :=
  ∀ above below, text = above ++ '\n' :: below → beginsBlock below = false

theorem blockFree_cons :
    BlockFree (c :: text) ↔ (c == '\n' && beginsBlock text) = false ∧ BlockFree text := by
  constructor
  · intro h
    refine ⟨?_, fun above below heq => h (c :: above) below (by rw [heq, List.cons_append])⟩
    by_cases hc : c = '\n'
    · rw [h [] text (by rw [hc, List.nil_append]), Bool.and_false]
    · rw [beq_eq_false_iff_ne.mpr hc, Bool.false_and]
  · rintro ⟨hfirst, hmore⟩ above below heq
    rcases above with - | ⟨d, above⟩
    · obtain ⟨rfl, rfl⟩ := List.cons.inj heq
      simpa using hfirst
    · exact hmore above below (List.cons.inj heq).2

/-- The search finds nothing exactly if there is nothing to find. -/
theorem untilNextBlock?_eq_none_iff : untilNextBlock? text = none ↔ BlockFree text := by
  induction text with
  | nil =>
      refine iff_of_true rfl fun above below heq => ?_
      simp at heq
  | cons c text ih =>
      rw [blockFree_cons, untilNextBlock?, ← ih]
      rcases (c == '\n' && beginsBlock text) with - | - <;> simp

instance : Decidable (BlockFree text) :=
  decidable_of_iff _ untilNextBlock?_eq_none_iff

/-- **The line after a text** whose own lines begin no block is the next that
does. -/
theorem untilNextBlock?_feed (hfree : BlockFree (text ++ ['\n']))
    (hrest : beginsBlock rest = true) :
    untilNextBlock? (text ++ '\n' :: rest) = some (text.length + 1) := by
  induction text with
  | nil =>
      rw [List.nil_append, untilNextBlock?, hrest]
      rfl
  | cons c text ih =>
      rw [List.cons_append, blockFree_cons] at hfree
      obtain ⟨hfirst, hmore⟩ := hfree
      -- the line feed at the end stops the look at the line, so the rest is not seen
      have hline : beginsBlock (text ++ '\n' :: rest) = beginsBlock (text ++ ['\n']) := by
        rw [List.append_cons]
        exact beginsBlock_append ⟨'\n', by simp, by decide, by decide⟩ rest
      rw [List.cons_append, untilNextBlock?, hline, hfirst, if_neg Bool.false_ne_true, ih hmore]
      rfl

/-- The start of a block has no `@` in it and no line that begins one. -/
theorem blockFree_append {front : List Char} (hfront : '@' ∉ front ++ [c])
    (hfeed : c ≠ '\n') (hspace : c ≠ ' ') (htab : c ≠ '\t') (hfree : BlockFree text) :
    BlockFree (front ++ c :: text) := by
  induction front with
  | nil => exact blockFree_cons.mpr ⟨by simp [hfeed], hfree⟩
  | cons d front ih =>
      have hmore : '@' ∉ front ++ [c] := fun hmem => hfront (List.mem_cons_of_mem d hmem)
      rw [List.cons_append, blockFree_cons]
      refine ⟨?_, ih hmore⟩
      rw [List.append_cons, beginsBlock_append ⟨c, by simp, hspace, htab⟩, not_beginsBlock hmore,
        Bool.and_false]

end

/-! ### A broken block -/

/-- A text that ends its last line and whose first `@` opens a block: a type,
blanks, a delimiter, and more text in which no line begins a block.  Whether the
block is broken depends on the text after it too. -/
structure Broken where
  free : Written.Free
  entryType : List Char
  gap : List Char
  opener : Char
  closer : Char
  inside : List Char
  entryType_ne_nil : entryType ≠ [] := by decide
  entryType_chars : entryType.all isTypeChar = true := by decide
  gap_blank : gap.all isAsciiBlank = true := by decide
  opens : closerOf? opener = some closer := by decide
  ends : inside.getLast? = some '\n' := by decide
  blockFree : BlockFree inside := by decide

namespace Broken

/-- What stands after the `@`. -/
def opened (p : Broken) : List Char :=
  p.entryType ++ p.gap ++ p.opener :: p.inside

/-- The text up to the next line that begins a block. -/
def text (p : Broken) : List Char :=
  p.free.text ++ '@' :: p.opened

/-- What is told of the broken block. -/
def warning (p : Broken) (path : Path) : Warning :=
  (Fault.unbalanced (String.ofList (asciiLower p.entryType))).warning path
    (p.free.text.count '\n')

theorem blockFree_opened (p : Broken) : BlockFree p.opened := by
  have hplain : '@' ∉ p.entryType ++ p.gap ++ [p.opener] := by
    intro hmem
    simp only [List.mem_append, List.mem_singleton] at hmem
    rcases hmem with (hmem | hmem) | hmem
    · exact absurd (List.all_eq_true.mp p.entryType_chars _ hmem) (by decide)
    · exact absurd (List.all_eq_true.mp p.gap_blank _ hmem) (by decide)
    · have hopens := p.opens
      rw [← hmem] at hopens
      cases hopens
  rcases closerOf?_eq_some p.opens with ⟨h, -⟩ | ⟨h, -⟩
  · refine blockFree_append hplain ?_ ?_ ?_ p.blockFree <;> rw [h] <;> decide
  · refine blockFree_append hplain ?_ ?_ ?_ p.blockFree <;> rw [h] <;> decide

/-- **Reading goes on at the next line that begins a block.** -/
theorem blocks_append (p : Broken) {rest : List Char} (hrest : beginsBlock rest = true)
    (hbroken : closedBody? p.closer 0 (p.inside ++ rest) = none) :
    blocks (p.text ++ rest)
      = ⟨p.free.text.count '\n', p.free.text.length,
          String.ofList (asciiLower p.entryType), .unbalanced⟩ ::
        (blocks rest).map (Block.down (p.text.count '\n') p.text.length) := by
  obtain ⟨init, hinit⟩ := List.getLast?_eq_some_iff.mp p.ends
  have hopened : p.opened = (p.entryType ++ p.gap ++ p.opener :: init) ++ ['\n'] := by
    rw [opened, hinit]
    simp
  have hopening : opening? (p.opened ++ rest) = some (String.ofList (asciiLower p.entryType),
      p.closer, p.entryType.length + p.gap.length + 1, p.inside ++ rest) := by
    rw [opened, List.append_assoc, List.cons_append]
    exact opening?_append p.entryType_ne_nil p.entryType_chars p.gap_blank p.opens
  have hnext : untilNextBlock? (p.opened ++ rest) = some p.opened.length := by
    have hfree := p.blockFree_opened
    rw [hopened] at hfree ⊢
    rw [List.append_assoc _ ['\n'], List.singleton_append, untilNextBlock?_feed hfree hrest]
    simp only [List.length_append, List.length_singleton]
  have hfeeds : p.text.count '\n' = p.free.text.count '\n' + p.opened.count '\n' := by
    rw [text, List.count_append, List.count_cons_of_ne (by decide)]
  have hlength : p.text.length = p.free.text.length + 1 + p.opened.length := by
    rw [text, List.length_append, List.length_cons]
    omega
  rw [blocks, blocks, ← blocksFrom_down, hfeeds, hlength]
  -- up to the `@`, over the broken block, and then the rest from its start
  rw [text, List.append_assoc, Written.blocksFrom_free p.free.plain, List.cons_append, blocksFrom,
    Nat.zero_add, Nat.zero_add]
  simp only [beq_self_eq_true, if_true, hopening, hbroken, hnext]
  rw [Written.blocksFrom_pass]
  rfl

/-- **A broken block costs only itself.**  If the first `@` of a text opens a
block that nothing in the whole text closes, entries and warnings are those of
the text from the next line on that begins a block, as many lines further down
as there are before that line, and one warning about the broken block before
them. -/
theorem read_after_broken (p : Broken) (rest : List Char) (path : Path)
    (hrest : beginsBlock rest = true)
    (hbroken : closedBody? p.closer 0 (p.inside ++ rest) = none) :
    read (String.ofList (p.text ++ rest)) path
      = ((read (String.ofList rest) path).1.map (Entry.down (p.text.count '\n')),
        p.warning path ::
          (read (String.ofList rest) path).2.map (Warning.down (p.text.count '\n'))) := by
  simp only [read, String.toList_ofList]
  rw [p.blocks_append hrest hbroken, entriesFrom]
  simp only [Block.read, entriesFrom_down]
  rfl

/-- A block in parentheses with an open brace inside it and an `@` within a
line. -/
def openBrace : Broken where
  free := { text := "see:\n".toList }
  entryType := "Article".toList
  gap := [' ']
  opener := '('
  closer := ')'
  inside := "b, a@b = \x7bnever)\n".toList

theorem read_after_broken_openBrace :
    beginsBlock "\t@book{k, title = {T}}\n@misc{k}".toList = true ∧
    closedBody? ')' 0 (openBrace.inside ++ "\t@book{k, title = {T}}\n@misc{k}".toList) = none ∧
    read ("see:\n@Article (b, a@b = \x7bnever)\n\t@book{k, title = {T}}\n@misc{k}") ⟨"r.bib"⟩ =
      ([⟨"k", "book", ⟨"r.bib"⟩, 2, some "T", none⟩],
        [⟨.malformedInput, ⟨"r.bib"⟩, some 1, "unbalanced braces in @article entry"⟩,
          ⟨.duplicateBibKey, ⟨"r.bib"⟩, some 3, "duplicate bibliography key `k`"⟩]) := by
  have hrest : beginsBlock "\t@book{k, title = {T}}\n@misc{k}".toList = true := by decide
  have hbroken : closedBody? ')' 0
      (openBrace.inside ++ "\t@book{k, title = {T}}\n@misc{k}".toList) = none := by decide
  have htext : "see:\n@Article (b, a@b = \x7bnever)\n\t@book{k, title = {T}}\n@misc{k}" =
      String.ofList (openBrace.text ++ "\t@book{k, title = {T}}\n@misc{k}".toList) := by
    decide +kernel
  refine ⟨hrest, hbroken, ?_⟩
  rw [htext, openBrace.read_after_broken _ ⟨"r.bib"⟩ hrest hbroken]
  decide +kernel

end Broken

end Bib

end LatexIndex
