/-
LatexIndex/Proofs/Databases.lean

Bibliographies as they are written, and reading them back.

A record is written as `@type{key, name = value, ...}` with spaces, tabs and
line feeds between the tokens, and each value in braces or in quotes; a
database is a list of records with free text around them.  Types, keys, names
and values carry what makes them fit into that form.

Reading follows the writing.  One record makes one block whose body is what
was written between its braces (`blocksFrom_record`), and the block makes the
entry of the record, or the fault that its key is known
(`read_block`).  The main theorem `read_written` puts this together by
induction on the records.
-/
import LatexIndex.Listing
import LatexIndex.Proofs.Delimiters

namespace LatexIndex.Bib

open Text

namespace Written

/-! ### The written form -/

/-- Spaces, tabs and line feeds. -/
def isGapChar (c : Char) : Bool :=
  c == ' ' || c == '\t' || c == '\n'

/-- What stands between two tokens. -/
structure Gap where
  text : List Char
  blank : text.all isGapChar = true := by decide

/-- How a value is delimited. -/
inductive Quoting where
  | braces
  | quotes
  deriving DecidableEq, Repr

/-- A value between its delimiters. -/
def Quoting.wrap (value : List Char) : Quoting → List Char
  | braces => '{' :: (value ++ ['}'])
  | quotes => '"' :: (value ++ ['"'])

/-- The characters that names of fields are made of. -/
def isNameChar (c : Char) : Bool :=
  !isBlank c && !(c == ',' || c == '=' || c == '{' || c == '}' || c == '"')

/-- The characters that keys are made of. -/
def isKeyChar (c : Char) : Bool :=
  !(c == ',' || c == '{' || c == '}' || c == '\\')

/-- A field of a record.  Its name is a word, the braces of its value are
balanced and have no backslash directly before them, and in a value in quotes
every quote is inside braces. -/
structure Field where
  name : List Char
  value : List Char
  quoting : Quoting
  beforeName : Gap
  beforeSign : Gap
  beforeValue : Gap
  afterValue : Gap
  name_ne_nil : name ≠ [] := by decide
  name_word : name.all isNameChar = true := by decide
  value_balanced : depthAfter? 0 value = some 0 := by decide
  value_unescaped : Unescaped value := by decide
  value_quotable : quoting = .quotes → quoteFree 0 value = true := by decide

/-- A field between two commas. -/
def Field.text (f : Field) : List Char :=
  f.beforeName.text ++ (f.name ++ f.beforeSign.text ++ ['=']) ++
    (f.beforeValue.text ++ f.quoting.wrap f.value ++ f.afterValue.text)

/-- A record.  Its type is one of entries, and its key is trimmed and has
neither commas nor braces nor backslashes in it.  A comma may follow the last
field. -/
structure Record where
  entryType : List Char
  key : List Char
  fields : List Field
  afterType : Gap
  beforeKey : Gap
  afterKey : Gap
  afterLastComma : Option Gap
  entryType_ne_nil : entryType ≠ [] := by decide
  entryType_chars : entryType.all isTypeChar = true := by decide
  entryType_keyed : isKeylessType (String.ofList (asciiLower entryType)) = false := by decide
  key_ne_nil : key ≠ [] := by decide
  key_trimmed : trim key = key := by decide
  key_chars : key.all isKeyChar = true := by decide

namespace Record

/-- What stands between the commas after the key. -/
def parts (r : Record) : List (List Char) :=
  r.fields.map Field.text ++ r.afterLastComma.toList.map Gap.text

/-- What stands between the braces of a record. -/
def body (r : Record) : List Char :=
  r.beforeKey.text ++ r.key ++ r.afterKey.text ++ r.parts.flatMap (',' :: ·)

/-- The text of a record. -/
def text (r : Record) : List Char :=
  '@' :: (r.entryType ++ r.afterType.text ++ '{' :: (r.body ++ ['}']))

/-- The value of the last field of a name, as it is shown. -/
def value? (r : Record) (name : String) : Option String :=
  (r.fields.filter fun f => String.ofList (asciiLower f.name) = name).getLast?.map
    fun f => cleanValue f.value

/-- What a record at a line says. -/
def entry (r : Record) (path : Path) (line : Nat) : Entry :=
  { key := String.ofList r.key
    entryType := String.ofList (asciiLower r.entryType)
    path, line
    title := r.value? "title"
    author := r.value? "author" }

end Record

/-- Text without an `@`. -/
structure Free where
  text : List Char
  plain : '@' ∉ text := by decide

/-- Records, each with the free text before it, and the free text after them
all. -/
structure Database where
  records : List (Free × Record)
  after : Free

/-- The text of a list of records. -/
def textOf (records : List (Free × Record)) : List Char :=
  records.flatMap fun x => x.1.text ++ x.2.text

/-- The text of a database. -/
def Database.text (db : Database) : List Char :=
  textOf db.records ++ db.after.text

/-! ### What reading it should give -/

/-- A record and the line of its `@`. -/
structure Placed where
  line : Nat
  record : Record

/-- The records with their lines, the line feeds before their `@`; `before` is
the text before them all. -/
def placedFrom (before : List Char) : List (Free × Record) → List Placed
  | [] => []
  | (free, r) :: more =>
    ⟨(before ++ free.text).count '\n', r⟩ :: placedFrom (before ++ free.text ++ r.text) more

/-- Whether two records have one key. -/
def Placed.sameKey (a b : Placed) : Bool :=
  a.record.key == b.record.key

/-- The records whose key is one of `seen` or of a record before them. -/
def repeatsFrom (seen : List Placed) : List Placed → List Placed
  | [] => []
  | x :: more =>
    if seen.any (·.sameKey x) then x :: repeatsFrom seen more
    else repeatsFrom (x :: seen) more

/-- The records of a database with their lines. -/
def Database.placed (db : Database) : List Placed :=
  placedFrom [] db.records

/-- The entry of the first record of each key. -/
def Database.entries (db : Database) (path : Path) : List Entry :=
  (Listing.distinct Placed.sameKey db.placed).map fun x => x.record.entry path x.line

/-- One warning for each later record of a key. -/
def Database.warnings (db : Database) (path : Path) : List Warning :=
  (repeatsFrom [] db.placed).map fun x =>
    (Fault.duplicate (String.ofList x.record.key)).warning path x.line

/-- The closing delimiter of a field is not taken along: a value in braces
does not end in an odd number of backslashes. -/
def Field.Closes (f : Field) : Prop :=
  f.quoting = .braces → (f.value.reverse.takeWhile (· == '\\')).length % 2 = 0

instance (f : Field) : Decidable f.Closes :=
  inferInstanceAs (Decidable (_ → _))

/-! ### Gaps and values -/

variable {path : Path} {seen : List String} {line start : Nat} {rest value : List Char}
  {quoting : Quoting} {f : Field} {r : Record}

theorem Gap.cases (g : Gap) {c : Char} (hc : c ∈ g.text) : c = ' ' ∨ c = '\t' ∨ c = '\n' := by
  simpa [isGapChar, or_assoc] using List.all_eq_true.mp g.blank c hc

theorem Gap.forall {P : Char → Prop} (g : Gap) (hspace : P ' ') (htab : P '\t') (hfeed : P '\n') :
    ∀ c ∈ g.text, P c := by
  intro c hc
  rcases g.cases hc with rfl | rfl | rfl
  · exact hspace
  · exact htab
  · exact hfeed

theorem Gap.forall_between {P : Char → Prop} {text : List Char} (left right : Gap)
    (htext : ∀ c ∈ text, P c) (hspace : P ' ') (htab : P '\t') (hfeed : P '\n') :
    ∀ c ∈ left.text ++ text ++ right.text, P c := by
  intro c hc
  simp only [List.mem_append] at hc
  rcases hc with (hc | hc) | hc
  · exact left.forall hspace htab hfeed c hc
  · exact htext c hc
  · exact right.forall hspace htab hfeed c hc

theorem Gap.isBlank (g : Gap) : ∀ c ∈ g.text, Text.isBlank c = true :=
  g.forall (by decide) (by decide) (by decide)

theorem Gap.goes (g : Gap) : Goes 0 0 g.text :=
  goes_of_plain (g.forall (by decide) (by decide) (by decide))

theorem Gap.whole (g : Gap) : Whole 0 false 0 false g.text :=
  whole_of_plain (g.forall (by decide) (by decide) (by decide))

/-- A value between its delimiters is balanced for the search of the end. -/
theorem goes_wrap (hbalanced : depthAfter? 0 value = some 0) (hunescaped : Unescaped value)
    (hcloses : quoting = .braces → hangs value = false) : Goes 0 0 (quoting.wrap value) := by
  cases quoting with
  | braces =>
      have hvalue : Goes 1 1 value :=
        goes_of_unescaped hunescaped (hcloses rfl) (depthAfter?_succ hbalanced)
      have hclose : Goes 1 0 ['}'] := .cons (by decide) (by decide) (.nil 0)
      exact .cons (by decide) (by decide) (hvalue.append hclose)
  | quotes =>
      -- a backslash at the end of the value takes the quote along, which does not matter here
      have hangs_quote : hangs (value ++ ['"']) = false := by
        rw [hangs_concat]
        exact Bool.and_false _
      have hdepth : depthAfter? 0 (value ++ ['"']) = some 0 := by
        rw [depthAfter?_append, hbalanced]
        rfl
      exact .cons (by decide) (by decide)
        (goes_of_unescaped (hunescaped.concat (by decide) (by decide)) hangs_quote hdepth)

/-- A value between its delimiters has no dividing commas. -/
theorem whole_wrap (hbalanced : depthAfter? 0 value = some 0)
    (hquotable : quoting = .quotes → quoteFree 0 value = true) :
    Whole 0 false 0 false (quoting.wrap value) := by
  cases quoting with
  | braces =>
      have hvalue : Whole 1 false 1 false value := whole_inside hbalanced
      have hclose : Whole 1 false 0 false ['}'] := .cons (by decide) (.nil 0 false)
      exact .cons (by decide) (hvalue.append hclose)
  | quotes =>
      have hvalue : Whole 0 true 0 true value := whole_inside_quotes hbalanced (hquotable rfl)
      have hclose : Whole 0 true 0 false ['"'] := .cons (by decide) (.nil 0 false)
      exact .cons (by decide) (hvalue.append hclose)

/-- What is shown of a value are neither its delimiters nor the blanks around
it. -/
theorem cleanValue_wrap (left right : Gap) :
    cleanValue (left.text ++ quoting.wrap value ++ right.text) = cleanValue value := by
  have hgap : ∀ g : Gap, g.text.filter (fun c => !(c == '{' || c == '}' || c == '"')) = g.text :=
    fun g => List.filter_eq_self.mpr (g.forall (by decide) (by decide) (by decide))
  have hwrap : (quoting.wrap value).filter (fun c => !(c == '{' || c == '}' || c == '"')) =
      value.filter (fun c => !(c == '{' || c == '}' || c == '"')) := by
    cases quoting <;> simp [Quoting.wrap]
  rw [cleanValue, cleanValue, List.filter_append, List.filter_append, hgap, hgap, hwrap,
    words_between left.isBlank right.isBlank]

/-! ### Fields -/

namespace Field

/-- The name and what is shown of the value. -/
def read (f : Field) : String × String :=
  (String.ofList (asciiLower f.name), cleanValue f.value)

theorem of_mem_name (f : Field) {c : Char} (hc : c ∈ f.name) : isBlank c = false ∧
    c ≠ ',' ∧ c ≠ '=' ∧ c ≠ '{' ∧ c ≠ '}' ∧ c ≠ '"' := by
  simpa [isNameChar, and_assoc] using List.all_eq_true.mp f.name_word c hc

/-- The name with the sign after it holds none of the other delimiters. -/
theorem name_plain (f : Field) : ∀ c ∈ f.name ++ f.beforeSign.text ++ ['='],
    c ≠ ',' ∧ c ≠ '{' ∧ c ≠ '}' ∧ c ≠ '"' := by
  intro c hc
  simp only [List.mem_append, List.mem_singleton] at hc
  rcases hc with (hc | hc) | rfl
  · obtain ⟨-, hcomma, -, hrest⟩ := f.of_mem_name hc
    exact ⟨hcomma, hrest⟩
  · rcases f.beforeSign.cases hc with rfl | rfl | rfl <;> decide
  · decide

theorem goes_name (f : Field) : Goes 0 0 (f.name ++ f.beforeSign.text ++ ['=']) := by
  have hbraceless : ∀ c ∈ f.name ++ f.beforeSign.text ++ ['='], c ≠ '{' ∧ c ≠ '}' :=
    fun c hc => ⟨(f.name_plain c hc).2.1, (f.name_plain c hc).2.2.1⟩
  have hhangs : hangs (f.name ++ f.beforeSign.text ++ ['=']) = false := by
    rw [hangs_concat]
    exact Bool.and_false _
  exact goes_of_unescaped (unescaped_of_braceless hbraceless) hhangs
    (depthAfter?_of_braceless hbraceless)

theorem goes_value (hf : f.Closes) : Goes 0 0 (f.quoting.wrap f.value) := by
  refine goes_wrap f.value_balanced f.value_unescaped fun hbraces => ?_
  rw [hangs_eq, hf hbraces]
  rfl

theorem goes (hf : f.Closes) : Goes 0 0 f.text :=
  (f.beforeName.goes.append f.goes_name).append
    ((f.beforeValue.goes.append (goes_value hf)).append f.afterValue.goes)

theorem whole (f : Field) : Whole 0 false 0 false f.text := by
  have hvalue := whole_wrap f.value_balanced f.value_quotable
  exact (f.beforeName.whole.append (whole_of_plain f.name_plain)).append
    ((f.beforeValue.whole.append hvalue).append f.afterValue.whole)

/-- A written field is read back. -/
theorem field?_text (f : Field) : field? f.text = some f.read := by
  have htext : f.text = (f.beforeName.text ++ f.name ++ f.beforeSign.text) ++
      '=' :: (f.beforeValue.text ++ f.quoting.wrap f.value ++ f.afterValue.text) := by
    simp [text]
  have hsign : ∀ c ∈ f.name, (c == '=') = false :=
    fun c hc => beq_eq_false_iff_ne.mpr (f.of_mem_name hc).2.2.1
  have hname : ∀ c ∈ f.beforeName.text ++ f.name ++ f.beforeSign.text, (c == '=') = false :=
    f.beforeName.forall_between f.beforeSign hsign (by decide) (by decide) (by decide)
  have htrim : trim f.name = f.name := trim_of_blankless fun c hc => (f.of_mem_name hc).1
  rw [field?, htext, cutAt_append hname rfl]
  simp only [Option.map_some, trim_between f.beforeName.isBlank f.beforeSign.isBlank htrim,
    cleanValue_wrap, read]

end Field

/-! ### Records -/

namespace Record

theorem forall_parts {P : List Char → Prop} (hfields : ∀ f ∈ r.fields, P f.text)
    (hgap : ∀ g : Gap, P g.text) : ∀ part ∈ r.parts, P part := by
  intro part hpart
  rw [parts, List.mem_append] at hpart
  rcases hpart with hpart | hpart
  · obtain ⟨f, hf, rfl⟩ := List.mem_map.mp hpart
    exact hfields f hf
  · obtain ⟨g, -, rfl⟩ := List.mem_map.mp hpart
    exact hgap g

theorem filterMap_parts (r : Record) : r.parts.filterMap field? = r.fields.map Field.read := by
  have hgap : ∀ g : Gap, field? g.text = none := by
    intro g
    rw [field?, cutAt_eq_none (g.forall (by decide) (by decide) (by decide))]
    rfl
  have hlast : r.afterLastComma.toList.filterMap (field? ∘ Gap.text) = [] :=
    List.filterMap_eq_nil_iff.mpr fun g _ => hgap g
  rw [parts, List.filterMap_append, List.filterMap_map, List.filterMap_map, hlast,
    List.append_nil, ← List.filterMap_eq_map]
  exact List.filterMap_congr fun f _ => f.field?_text

theorem goes_commas {parts : List (List Char)} (h : ∀ part ∈ parts, Goes 0 0 part) :
    Goes 0 0 (parts.flatMap (',' :: ·)) := by
  induction parts with
  | nil => exact .nil 0
  | cons part parts ih =>
      obtain ⟨hpart, hparts⟩ := List.forall_mem_cons.mp h
      exact .cons (by decide) (by decide) (hpart.append (ih hparts))

/-- The parts are what the cutting gives back. -/
theorem fieldParts_commas {part : List Char} {parts : List (List Char)}
    (h : ∀ p ∈ part :: parts, Whole 0 false 0 false p) :
    fieldParts 0 false (part ++ parts.flatMap (',' :: ·)) = part :: parts := by
  induction parts generalizing part with
  | nil => rw [List.flatMap_nil, List.append_nil, (h part List.mem_cons_self).fieldParts_eq]
  | cons next parts ih =>
      obtain ⟨hpart, hparts⟩ := List.forall_mem_cons.mp h
      rw [List.flatMap_cons, List.cons_append, hpart.fieldParts_comma, ih hparts]

theorem of_mem_key (r : Record) {c : Char} (hc : c ∈ r.key) :
    c ≠ ',' ∧ c ≠ '{' ∧ c ≠ '}' ∧ c ≠ '\\' := by
  simpa [isKeyChar, and_assoc] using List.all_eq_true.mp r.key_chars c hc

theorem goes_front (r : Record) : Goes 0 0 (r.beforeKey.text ++ r.key ++ r.afterKey.text) := by
  have hkey : Goes 0 0 r.key := by
    refine goes_of_plain fun c hc => ?_
    obtain ⟨-, hopen, hclose, hbackslash⟩ := r.of_mem_key hc
    exact ⟨hbackslash, hopen, hclose⟩
  exact (r.beforeKey.goes.append hkey).append r.afterKey.goes

theorem goes_body (hr : ∀ f ∈ r.fields, f.Closes) : Goes 0 0 r.body :=
  r.goes_front.append (goes_commas (forall_parts (fun f hf => Field.goes (hr f hf)) Gap.goes))

/-- **The body of a record ends where it was ended.** -/
theorem closedBody?_body (hr : ∀ f ∈ r.fields, f.Closes) (rest : List Char) :
    closedBody? '}' 0 (r.body ++ '}' :: rest) = some r.body := by
  rw [(goes_body hr).closedBody?_append, closedBody?_end, Option.map_some, List.append_nil]

/-- The key and the fields of a record are read back from its body. -/
theorem splitKey_body (r : Record) : ∃ fieldText,
    splitKey r.body = (String.ofList r.key, fieldText) ∧
      Bib.fields fieldText = r.fields.map Field.read := by
  have htrim : trim (r.beforeKey.text ++ r.key ++ r.afterKey.text) = r.key :=
    trim_between r.beforeKey.isBlank r.afterKey.isBlank r.key_trimmed
  have hkey : ∀ c ∈ r.key, (c == ',') = false :=
    fun c hc => beq_eq_false_iff_ne.mpr (r.of_mem_key hc).1
  have hcomma : ∀ c ∈ r.beforeKey.text ++ r.key ++ r.afterKey.text, (c == ',') = false :=
    r.beforeKey.forall_between r.afterKey hkey (by decide) (by decide) (by decide)
  have hread := r.filterMap_parts
  have hwhole : ∀ part ∈ r.parts, Whole 0 false 0 false part :=
    forall_parts (fun f _ => f.whole) Gap.whole
  rw [body, splitKey]
  -- without any part there is no comma after the key
  rcases hparts : r.parts with - | ⟨part, parts⟩
  · rw [hparts] at hread
    refine ⟨[], ?_, ?_⟩
    · rw [List.flatMap_nil, List.append_nil, cutAt_eq_none hcomma]
      simp only [htrim]
    · rw [← hread]
      rfl
  · rw [hparts] at hread hwhole
    refine ⟨part ++ parts.flatMap (',' :: ·), ?_, ?_⟩
    · rw [List.flatMap_cons, List.cons_append, cutAt_append hcomma rfl]
      simp only [htrim]
    · rw [Bib.fields, fieldParts_commas hwhole, hread]

theorem lastValue?_read (r : Record) (name : String) :
    lastValue? name (r.fields.map Field.read) = r.value? name := by
  rw [lastValue?, ← List.map_reverse, List.find?_map, Option.map_map, ← List.head?_filter,
    List.filter_reverse, List.head?_reverse]
  rfl

end Record

/-- The block that a record makes. -/
def Record.block (r : Record) (line start : Nat) : Block :=
  ⟨line, start, String.ofList (asciiLower r.entryType), .body r.body⟩

/-- **What the block of a record comes to**: its entry, or the fault that its
key is known. -/
theorem read_block (r : Record) :
    (r.block line start).read path seen =
      if String.ofList r.key ∈ seen then some (.error (.duplicate (String.ofList r.key)))
      else some (.ok (r.entry path line)) := by
  obtain ⟨fieldText, hsplit, hfields⟩ := r.splitKey_body
  have hkey : String.ofList r.key ≠ "" := fun h => r.key_ne_nil (by simpa using h)
  simp only [Block.read, Record.block, r.entryType_keyed, hsplit, if_neg hkey, entryOf, hfields,
    Record.lastValue?_read, Bool.false_eq_true, if_false, Record.entry]

/-! ### Blocks -/

theorem blocksFrom_free {free : List Char} (h : '@' ∉ free) :
    blocksFrom 0 line start (free ++ rest) =
      blocksFrom 0 (line + free.count '\n') (start + free.length) rest := by
  induction free generalizing line start with
  | nil => rfl
  | cons c free ih =>
      have hc : ¬ (c == '@') = true := fun hc => h (by simp_all)
      rw [List.cons_append, blocksFrom]
      simp only [hc]
      rw [if_neg Bool.false_ne_true, ih fun hmem => h (List.mem_cons_of_mem c hmem)]
      congr 1
      · rw [List.count_cons]
        split <;> omega
      · rw [List.length_cons]
        omega

theorem blocksFrom_pass (text : List Char) :
    blocksFrom text.length line start (text ++ rest) =
      blocksFrom 0 (line + text.count '\n') (start + text.length) rest := by
  induction text generalizing line start with
  | nil => rfl
  | cons c text ih =>
      rw [List.cons_append, List.length_cons, blocksFrom, ih]
      congr 1
      · rw [List.count_cons]
        split <;> omega
      · omega

/-- **A block whose body is closed** is one block, and reading goes on after
it. -/
theorem blocksFrom_closed {entryType gap body : List Char} {opener closer : Char}
    (hne : entryType ≠ []) (htype : entryType.all isTypeChar = true)
    (hgap : gap.all isAsciiBlank = true) (hopener : closerOf? opener = some closer)
    (hbody : closedBody? closer 0 (body ++ closer :: rest) = some body) :
    blocksFrom 0 line start ('@' :: (entryType ++ gap ++ opener :: (body ++ [closer])) ++ rest) =
      ⟨line, start, String.ofList (asciiLower entryType), .body body⟩ ::
        blocksFrom 0 (line + (entryType ++ gap ++ opener :: (body ++ [closer])).count '\n')
          (start + 1 + (entryType ++ gap ++ opener :: (body ++ [closer])).length) rest := by
  -- what is passed over after the `@`
  have hpassed : entryType ++ gap ++ opener :: (body ++ [closer]) ++ rest =
      entryType ++ gap ++ opener :: (body ++ closer :: rest) := by
    simp
  have hlength : entryType.length + gap.length + 1 + body.length + 1 =
      (entryType ++ gap ++ opener :: (body ++ [closer])).length := by
    simp only [List.length_append, List.length_cons, List.length_nil]
    omega
  rw [List.cons_append, blocksFrom, hpassed]
  simp only [beq_self_eq_true, if_true, opening?_append hne htype hgap hopener, hbody, hlength]
  rw [← hpassed, blocksFrom_pass]
  rfl

/-- **A record makes one block**, and reading goes on after it. -/
theorem blocksFrom_record (hr : ∀ f ∈ r.fields, f.Closes) :
    blocksFrom 0 line start (r.text ++ rest) = r.block line start ::
      blocksFrom 0 (line + r.text.count '\n') (start + r.text.length) rest := by
  have hgap : r.afterType.text.all isAsciiBlank = true :=
    List.all_eq_true.mpr (r.afterType.forall (by decide) (by decide) (by decide))
  have hblocks := @blocksFrom_closed line start rest _ _ _ '{' '}' r.entryType_ne_nil
    r.entryType_chars hgap rfl (Record.closedBody?_body hr rest)
  rw [Record.text, hblocks, Record.block, List.count_cons_of_ne (by decide), List.length_cons,
    Nat.add_right_comm]
  rfl

/-! ### Databases -/

theorem any_sameKey {seen : List Placed} {x : Placed} :
    seen.any (·.sameKey x) = true ↔
      String.ofList x.record.key ∈ seen.map fun y => String.ofList y.record.key := by
  rw [List.any_eq_true, List.mem_map]
  refine exists_congr fun y => and_congr_right fun _ => ?_
  rw [Placed.sameKey, beq_iff_eq, String.ofList_inj]

/-- What is read of the records that follow some text, when the keys in `seen`
have been used. -/
theorem entriesFrom_records {records : List (Free × Record)} (after : Free) (before : List Char)
    (seen : List Placed) (h : ∀ x ∈ records, ∀ f ∈ x.2.fields, f.Closes) :
    entriesFrom path (seen.map fun y => String.ofList y.record.key)
        (blocksFrom 0 (before.count '\n') start (textOf records ++ after.text)) =
      ((Listing.distinctFrom Placed.sameKey seen (placedFrom before records)).map
          fun x => x.record.entry path x.line,
        (repeatsFrom seen (placedFrom before records)).map fun x =>
          (Fault.duplicate (String.ofList x.record.key)).warning path x.line) := by
  induction records generalizing before seen start with
  | nil =>
      have hafter := @blocksFrom_free (before.count '\n') start [] after.text after.plain
      rw [List.append_nil] at hafter
      rw [textOf, List.flatMap_nil, List.nil_append, hafter]
      rfl
  | cons x records ih =>
      obtain ⟨free, r⟩ := x
      obtain ⟨hr, hrecords⟩ := List.forall_mem_cons.mp h
      have htext : textOf ((free, r) :: records) ++ after.text =
          free.text ++ (r.text ++ (textOf records ++ after.text)) := by
        simp [textOf]
      rw [htext, blocksFrom_free free.plain, blocksFrom_record hr, ← List.count_append,
        ← List.count_append, entriesFrom, read_block, placedFrom, Listing.distinctFrom, repeatsFrom]
      by_cases hseen : String.ofList r.key ∈ seen.map fun y => String.ofList y.record.key
      · -- a warning, and the keys in use stay the same
        rw [if_pos hseen, if_pos (any_sameKey.mpr hseen), if_pos (any_sameKey.mpr hseen)]
        simp only [ih (before ++ free.text ++ r.text) seen hrecords]
        rfl
      · -- an entry, and its key is in use from here on
        have hmore := fun start => @ih start (before ++ free.text ++ r.text)
          (⟨(before ++ free.text).count '\n', r⟩ :: seen) hrecords
        rw [List.map_cons] at hmore
        rw [if_neg hseen, if_neg (mt any_sameKey.mp hseen), if_neg (mt any_sameKey.mp hseen)]
        simp only [Record.entry, hmore]
        rfl

/-- **A written bibliography is read back.**  Whatever stands between the
tokens and between the records, and however the values are delimited, reading
a database gives the entry of the first record of each key and one warning
for each later one, in order, and nothing else; provided that no value in
braces ends in a backslash that takes its closing brace along. -/
theorem read_written (db : Database) (path : Path)
    (h : ∀ x ∈ db.records, ∀ f ∈ x.2.fields, f.Closes) :
    read (String.ofList db.text) path = (db.entries path, db.warnings path) := by
  rw [read, String.toList_ofList, blocks, Database.text]
  exact entriesFrom_records db.after [] [] h

/-- Two records with one key and all delimiters inside the values of the
first. -/
def nestedDatabase : Database where
  records :=
    [({ text := "refs:\n".toList },
      { entryType := "Book".toList, key := "k".toList
        fields :=
          [{ name := "Title".toList, value := "A \x7b\"B\", @c = \\d\x7d".toList, quoting := .braces
             beforeName := { text := ['\n', '\t'] }, beforeSign := { text := [' '] }
             beforeValue := { text := [' '] }, afterValue := { text := [] } },
           { name := "author".toList, value := "D, \x7b\"\x7dE\\".toList, quoting := .quotes
             beforeName := { text := ['\n'] }, beforeSign := { text := [] }
             beforeValue := { text := [] }, afterValue := { text := ['\n'] } }]
        afterType := { text := [' '] }, beforeKey := { text := [] }, afterKey := { text := [] }
        afterLastComma := none }),
     ({ text := "\n".toList },
      { entryType := "misc".toList, key := "k".toList, fields := []
        afterType := { text := [] }, beforeKey := { text := [] }, afterKey := { text := [] }
        afterLastComma := some { text := [' '] } })]
  after := { text := "\n".toList }

theorem nested_text : String.ofList nestedDatabase.text =
    "refs:\n@Book \x7bk,\n\tTitle = \x7bA \x7b\"B\", @c = \\d\x7d\x7d,\n" ++
      "author=\"D, \x7b\"\x7dE\\\"\n\x7d\n@misc\x7bk, \x7d\n" := by
  decide +kernel

theorem read_written_nested :
    (∀ x ∈ nestedDatabase.records, ∀ f ∈ x.2.fields, f.Closes) ∧
    read ("refs:\n@Book \x7bk,\n\tTitle = \x7bA \x7b\"B\", @c = \\d\x7d\x7d,\n" ++
        "author=\"D, \x7b\"\x7dE\\\"\n\x7d\n@misc\x7bk, \x7d\n") ⟨"r.bib"⟩ =
      ([⟨"k", "book", ⟨"r.bib"⟩, 1, some "A B, @c = \\d", some "D, E\\"⟩],
        [⟨.duplicateBibKey, ⟨"r.bib"⟩, some 5, "duplicate bibliography key `k`"⟩]) := by
  have hcloses : ∀ x ∈ nestedDatabase.records, ∀ f ∈ x.2.fields, f.Closes := by
    decide +kernel
  refine ⟨hcloses, ?_⟩
  rw [← nested_text, read_written nestedDatabase ⟨"r.bib"⟩ hcloses]
  decide +kernel

/-- A record whose value ends in a backslash. -/
def danglingDatabase : Database where
  records :=
    [({ text := [] },
      { entryType := "misc".toList, key := "k".toList
        fields :=
          [{ name := "title".toList, value := "x\\".toList, quoting := .braces
             beforeName := { text := [' '] }, beforeSign := { text := [' '] }
             beforeValue := { text := [' '] }, afterValue := { text := [] } }]
        afterType := { text := [] }, beforeKey := { text := [] }, afterKey := { text := [] }
        afterLastComma := none })]
  after := { text := ['\n'] }

/-- A backslash at the end of a value takes its closing brace along, and the
record is lost. -/
theorem dangling_not_read_back :
    String.ofList danglingDatabase.text = "@misc\x7bk, title = \x7bx\\\x7d\x7d\n" ∧
    danglingDatabase.entries ⟨"r.bib"⟩ = [⟨"k", "misc", ⟨"r.bib"⟩, 0, some "x\\", none⟩] ∧
    danglingDatabase.warnings ⟨"r.bib"⟩ = [] ∧
    read (String.ofList danglingDatabase.text) ⟨"r.bib"⟩ =
      ([], [⟨.malformedInput, ⟨"r.bib"⟩, some 0, "unbalanced braces in @misc entry"⟩]) := by
  decide +kernel

end Written

end LatexIndex.Bib
