/-
LatexIndex/Proofs/ByteBlocks.lean

Reading a block of a bibliography by byte offsets.

The reading told here looks at one byte after the other and cuts pieces out of the
text where it stopped: the type after an `@`, the body between two delimiters, the key
before the first comma, the fields between the others.  Each cut can fail, namely
inside a character.  None does, and what is cut out is what is read off the characters:
the byte that ends a body (`entryEnd?_encoded`), the next line that begins with an `@`
(`nextStart?_encoded`), the opening of a block (`openingAt?_eq`) and the parts of its
body (`cutKey?_eq`, `cutParts?_eq`).
-/
import LatexIndex.Proofs.ByteText
import LatexIndex.Proofs.Databases
import LatexIndex.Proofs.Directives

namespace LatexIndex.Bib

open Text

variable {text front back : List Char} {c closer : Char} {b : UInt8} {ws ys : List UInt8}
  {depth : Nat}

/-! ### The reading -/

/-- The byte that closes a body opened by the given one. -/
def closerByte? (b : UInt8) : Option UInt8 :=
  if b = '{'.toUInt8 then some '}'.toUInt8
  else if b = '('.toUInt8 then some ')'.toUInt8
  else none

/-- How many bytes stand before the one that closes a body, when `depth` braces are open
inside it; `taken` says that a backslash stands before. -/
def entryEnd? (closer : UInt8) (depth : Nat) (taken : Bool) : List UInt8 → Option Nat
  | [] => none
  | b :: rest =>
    if taken then (entryEnd? closer depth false rest).map (· + 1)
    else if b = '\\'.toUInt8 then (entryEnd? closer depth true rest).map (· + 1)
    else if b = '{'.toUInt8 then (entryEnd? closer (depth + 1) false rest).map (· + 1)
    else if b = '}'.toUInt8 ∧ 0 < depth then
      (entryEnd? closer (depth - 1) false rest).map (· + 1)
    else if b = closer ∧ depth = 0 then some 0
    else (entryEnd? closer depth false rest).map (· + 1)

/-- Spaces, tabs and an `@`. -/
def beginsEntry (xs : List UInt8) : Bool :=
  (xs.dropWhile (onByte fun c => c == ' ' || c == '\t')).head? == some '@'.toUInt8

/-- How many bytes there are up to the first line feed that an entry begins after. -/
def nextStart? : List UInt8 → Option Nat
  | [] => none
  | b :: rest =>
    if b == '\n'.toUInt8 && beginsEntry rest then some 1 else (nextStart? rest).map (· + 1)

/-- What follows an `@` at an offset, if it makes a block: the type, the byte that closes
the body, and the offset where the body begins.  Fails if the type cannot be cut out. -/
def openingAt? (text : List Char) (start : Nat) : Option (Option (String × UInt8 × Nat)) := do
  let after := (encoded text).drop (start + 1)
  let letters := after.takeWhile (onByte isTypeChar)
  let blanks := (after.dropWhile (onByte isTypeChar)).takeWhile (onByte isAsciiBlank)
  let opened := start + 1 + letters.length + blanks.length
  let entryType ← slice? text (start + 1) (start + 1 + letters.length)
  return ((encoded text)[opened]?.bind closerByte?).bind fun closer =>
    if entryType.isEmpty then none
    else some (String.ofList (asciiLower entryType), closer, opened + 1)

/-- The key of a body and the text of its fields, cut at the first comma. -/
def cutKey? (body : List Char) : Option (String × List Char) :=
  match (encoded body).idxOf? ','.toUInt8 with
  | some comma => do
    let key ← slice? body 0 comma
    let fieldText ← slice? body (comma + 1) (bytes body)
    return (String.ofList (trim key), fieldText)
  | none => some (String.ofList (trim body), [])

/-- The parts of a text of fields, cut at the dividing commas.  The part that is being
read starts at offset `start`, and what is left to read at `here`. -/
def cutParts? (body : List Char) (start here depth : Nat) (quoted : Bool) :
    List Char → Option (List (List Char))
  | [] => (slice? body start (bytes body)).map ([·])
  | c :: rest =>
    if c == ',' && depth == 0 && !quoted then do
      let part ← slice? body start here
      let more ← cutParts? body (here + 1) (here + c.utf8Size) depth quoted rest
      return part :: more
    else
      cutParts? body start (here + c.utf8Size) (depthStep depth c) (quotedStep depth quoted c) rest

/-! ### The end of a body -/

theorem isAscii_of_closerOf? {opener : Char} (h : closerOf? opener = some closer) :
    IsAscii closer ∧ closer ≠ '\\' := by
  rcases closerOf?_eq_some h with ⟨-, rfl⟩ | ⟨-, rfl⟩ <;> decide

/-- The end of a body is at a delimiter. -/
theorem getElem?_of_entryEnd? {stop : UInt8} {taken : Bool} {n : Nat}
    (h : entryEnd? stop depth taken ws = some n) : ws[n]? = some stop := by
  induction ws generalizing depth taken n with
  | nil => cases h
  | cons w ws ih =>
      have hmore : ∀ {depth taken}, (entryEnd? stop depth taken ws).map (· + 1) = some n →
          (w :: ws)[n]? = some stop := by
        intro depth taken hmap
        obtain ⟨m, hm, rfl⟩ := Option.map_eq_some_iff.mp hmap
        exact ih hm
      rw [entryEnd?] at h
      split at h
      · exact hmore h
      · split at h
        · exact hmore h
        · split at h
          · exact hmore h
          · split at h
            · exact hmore h
            · split at h
              · next hstop =>
                  obtain rfl := Option.some.inj h
                  rw [hstop.1]
                  rfl
              · exact hmore h

theorem entryEnd?_pass (hcloser : IsAscii closer) (h : ∀ d : Char, IsAscii d → d.toUInt8 ∉ ws) :
    entryEnd? closer.toUInt8 depth false (ws ++ ys)
      = (entryEnd? closer.toUInt8 depth false ys).map (ws.length + ·) := by
  induction ws with
  | nil => simp
  | cons w ws ih =>
      have hw : ∀ d : Char, IsAscii d → w ≠ d.toUInt8 := fun d hd heq =>
        h d hd (heq ▸ List.mem_cons_self)
      rw [List.cons_append, entryEnd?, if_neg Bool.false_ne_true, if_neg (hw _ (by decide)),
        if_neg (hw _ (by decide)), if_neg fun hb => hw _ (by decide) hb.1,
        if_neg fun hb => hw _ hcloser hb.1,
        ih fun d hd hmem => h d hd (List.mem_cons_of_mem w hmem),
        Option.map_map]
      congr 1
      funext n
      simp only [Function.comp_apply, List.length_cons]
      omega

/-- One character of a body. -/
theorem entryEnd?_cons (hcloser : IsAscii closer) (hc : c ≠ '\\') (text : List Char) :
    entryEnd? closer.toUInt8 depth false (encoded (c :: text)) =
      if c = '{' then
        (entryEnd? closer.toUInt8 (depth + 1) false (encoded text)).map (c.utf8Size + ·)
      else if c = '}' ∧ 0 < depth then
        (entryEnd? closer.toUInt8 (depth - 1) false (encoded text)).map (c.utf8Size + ·)
      else if c = closer ∧ depth = 0 then some 0
      else (entryEnd? closer.toUInt8 depth false (encoded text)).map (c.utf8Size + ·) := by
  by_cases hascii : IsAscii c
  · rw [encoded_cons_of_isAscii hascii, entryEnd?, if_neg Bool.false_ne_true,
      if_neg (mt (toUInt8_inj hascii (by decide)) hc)]
    simp only [toUInt8_eq_iff hascii hcloser, toUInt8_eq_iff hascii (show IsAscii '{' by decide),
      toUInt8_eq_iff hascii (show IsAscii '}' by decide), utf8Size_of_isAscii hascii,
      Nat.add_comm 1]
  · have hne : ∀ d : Char, IsAscii d → c ≠ d := fun d hd heq => hascii (heq ▸ hd)
    have hpass : ∀ d : Char, IsAscii d → d.toUInt8 ∉ String.utf8EncodeChar c := fun d hd =>
      toUInt8_notMem_utf8EncodeChar hd (hne d hd)
    rw [if_neg (hne _ (by decide)), if_neg fun h => hne _ (by decide) h.1,
      if_neg fun h => hne _ hcloser h.1, encoded_cons, entryEnd?_pass hcloser hpass,
      String.length_utf8EncodeChar]

/-- A backslash and the character that it takes along, of which only the first byte is
passed over as such. -/
theorem entryEnd?_escape (hcloser : IsAscii closer) (c : Char) (text : List Char) :
    entryEnd? closer.toUInt8 depth false (encoded ('\\' :: c :: text)) =
      (entryEnd? closer.toUInt8 depth false (encoded text)).map (1 + c.utf8Size + ·) := by
  obtain ⟨b, more, hbytes, hmore⟩ := exists_first_byte c
  have hsize : c.utf8Size = more.length + 1 := by
    rw [← String.length_utf8EncodeChar, hbytes, List.length_cons]
  rw [encoded_cons_of_isAscii (by decide), encoded_cons, hbytes, List.cons_append, entryEnd?,
    if_neg Bool.false_ne_true, if_pos rfl, entryEnd?, if_pos rfl, entryEnd?_pass hcloser hmore,
    Option.map_map, Option.map_map, hsize]
  congr 1
  funext n
  simp only [Function.comp_apply]
  omega

theorem closedBody?_char (hlone : ∀ d rest, c = '\\' → text = d :: rest → False) :
    closedBody? closer depth (c :: text) =
      if c = '{' then (closedBody? closer (depth + 1) text).map (c :: ·)
      else if c = '}' ∧ 0 < depth then (closedBody? closer (depth - 1) text).map (c :: ·)
      else if c = closer ∧ depth = 0 then some []
      else (closedBody? closer depth text).map (c :: ·) := by
  rw [closedBody?.eq_3 _ _ _ _ hlone]
  simp only [Bool.and_eq_true, beq_iff_eq, decide_eq_true_eq, gt_iff_lt]

/-- **The end of a body** is the same byte, whether bytes are read or characters. -/
theorem entryEnd?_encoded (hcloser : IsAscii closer) (hescape : closer ≠ '\\') (depth : Nat)
    (text : List Char) :
    entryEnd? closer.toUInt8 depth false (encoded text)
      = (closedBody? closer depth text).map bytes := by
  have hcons : ∀ (c : Char) (o : Option (List Char)),
      (o.map (c :: ·)).map bytes = (o.map bytes).map (c.utf8Size + ·) := by
    intro c o
    rw [Option.map_map, Option.map_map]
    rfl
  induction depth, text using closedBody?.induct closer with
  | case1 depth => rfl
  | case2 depth c text ih =>
      rw [entryEnd?_escape hcloser, ih, closedBody?, Option.map_map, Option.map_map]
      congr 1
      funext body
      have hsize : '\\'.utf8Size = 1 := rfl
      simp only [Function.comp_apply, bytes, hsize, Nat.add_assoc]
  | case3 depth c text hlone hc ih =>
      obtain rfl := beq_iff_eq.mp hc
      rw [entryEnd?_cons hcloser (by decide), closedBody?_char hlone, if_pos rfl, if_pos rfl, ih,
        hcons]
  | case4 depth c text hlone hc hclose ih =>
      simp only [beq_iff_eq, Bool.and_eq_true, decide_eq_true_eq, gt_iff_lt] at hc hclose
      have hback : c ≠ '\\' := by
        rw [hclose.1]
        decide
      rw [entryEnd?_cons hcloser hback, closedBody?_char hlone]
      simp only [if_neg hc, if_pos hclose, ih, hcons]
  | case5 depth c text hlone hc hclose hstop =>
      rw [Bool.and_eq_true, beq_iff_eq, beq_iff_eq] at hstop
      obtain ⟨rfl, rfl⟩ := hstop
      have hopen : c ≠ '{' := fun h => hc (beq_iff_eq.mpr h)
      have hcond : ¬ (c = '}' ∧ 0 < 0) := fun h => Nat.lt_irrefl 0 h.2
      rw [entryEnd?_cons hcloser hescape, closedBody?_char hlone]
      simp only [if_neg hopen, if_neg hcond, and_self, if_true, Option.map_some, bytes]
  | case6 depth c text hlone hc hclose hstop ih =>
      by_cases hback : c = '\\'
      · -- a backslash at the very end
        obtain rfl : text = [] := by
          rcases text with - | ⟨d, rest⟩
          · rfl
          · exact (hlone d rest hback rfl).elim
        subst hback
        rw [closedBody?_char hlone]
        simp only [if_neg (show '\\' ≠ '{' by decide),
          if_neg (fun h : '\\' = '}' ∧ 0 < depth => absurd h.1 (by decide)),
          if_neg (fun h : '\\' = closer ∧ depth = 0 => hescape h.1.symm), closedBody?]
        rfl
      · simp only [beq_iff_eq, Bool.and_eq_true, decide_eq_true_eq, gt_iff_lt] at hc hclose hstop
        rw [entryEnd?_cons hcloser hback, closedBody?_char hlone]
        simp only [if_neg hc, if_neg hclose, if_neg hstop, ih, hcons]

/-! ### The next line that begins with an `@` -/

theorem beginsEntry_encoded (text : List Char) : beginsEntry (encoded text) = beginsBlock text := by
  have hblank : ∀ c : Char, (c == ' ' || c == '\t') = true → IsAscii c := by
    intro c hc
    rw [Bool.or_eq_true, beq_iff_eq, beq_iff_eq] at hc
    rcases hc with rfl | rfl <;> decide
  rw [beginsEntry, beginsBlock, (takeWhile_encoded hblank text).2, Bool.eq_iff_iff, beq_iff_eq,
    beq_iff_eq]
  exact head?_encoded_iff (by decide)

theorem nextStart?_pass (h : ∀ d : Char, IsAscii d → d.toUInt8 ∉ ws) :
    nextStart? (ws ++ ys) = (nextStart? ys).map (ws.length + ·) := by
  induction ws with
  | nil => simp
  | cons w ws ih =>
      have hw : ¬ (w == '\n'.toUInt8 && beginsEntry (ws ++ ys)) = true := by
        rw [Bool.and_eq_true, beq_iff_eq]
        exact fun hfeed => h '\n' (by decide) (hfeed.1 ▸ List.mem_cons_self)
      rw [List.cons_append, nextStart?, if_neg hw,
        ih fun d hd hmem => h d hd (List.mem_cons_of_mem w hmem), Option.map_map]
      congr 1
      funext n
      simp only [Function.comp_apply, List.length_cons]
      omega

/-- **The next line that begins with an `@`** is the same, by bytes and by characters. -/
theorem nextStart?_encoded (text : List Char) :
    nextStart? (encoded text) = (untilNextBlock? text).map fun n => bytes (text.take n) := by
  induction text with
  | nil => rfl
  | cons c text ih =>
      have hmore : ((untilNextBlock? text).map (· + 1)).map (fun n => bytes ((c :: text).take n))
          = (nextStart? (encoded text)).map (c.utf8Size + ·) := by
        rw [ih, Option.map_map, Option.map_map]
        rfl
      by_cases hascii : IsAscii c
      · have hfeed : (c.toUInt8 == '\n'.toUInt8) = (c == '\n') := by
          rw [Bool.eq_iff_iff, beq_iff_eq, beq_iff_eq, toUInt8_eq_iff hascii (by decide)]
        rw [encoded_cons_of_isAscii hascii, nextStart?, untilNextBlock?, beginsEntry_encoded, hfeed]
        split
        · simp [bytes, utf8Size_of_isAscii hascii]
        · rw [hmore, utf8Size_of_isAscii hascii]
          simp only [Nat.add_comm 1]
      · have hne : c ≠ '\n' := fun h => hascii (h ▸ by decide)
        have hcond : ¬ (c == '\n' && beginsBlock text) = true := by
          rw [Bool.and_eq_true, beq_iff_eq]
          exact fun h => hne h.1
        have hpass : ∀ d : Char, IsAscii d → d.toUInt8 ∉ String.utf8EncodeChar c := fun d hd =>
          toUInt8_notMem_utf8EncodeChar hd fun h => hascii (h ▸ hd)
        rw [encoded_cons, nextStart?_pass hpass, untilNextBlock?, if_neg hcond, hmore,
          String.length_utf8EncodeChar]

/-! ### The opening of a block -/

theorem isAscii_of_isTypeChar (c : Char) (h : isTypeChar c = true) : IsAscii c := by
  have hranges : (((c.isUpper || c.isLower) || c.isDigit) || c == '_') = true := h
  simp only [Bool.or_eq_true, beq_iff_eq] at hranges
  rcases hranges with ((h | h) | h) | rfl
  · have hlast : c.toNat ≤ 90 := (of_decide_eq_true h).2
    exact Nat.lt_of_le_of_lt hlast (by decide)
  · have hbounds : ('a' ≤ c && c ≤ 'z') = true := h
    have hlast : c.toNat ≤ 122 := of_decide_eq_true (Bool.and_eq_true_iff.mp hbounds).2
    exact Nat.lt_of_le_of_lt hlast (by decide)
  · have hbounds : ('0' ≤ c && c ≤ '9') = true := h
    have hlast : c.toNat ≤ 57 := of_decide_eq_true (Bool.and_eq_true_iff.mp hbounds).2
    exact Nat.lt_of_le_of_lt hlast (by decide)
  · decide

theorem closerByte?_encoded (text : List Char) :
    (encoded text).head?.bind closerByte? = (text.head?.bind closerOf?).map Char.toUInt8 := by
  have hbrace := @head?_encoded_iff text '{' (by decide)
  have hparen := @head?_encoded_iff text '(' (by decide)
  rcases text with - | ⟨c, text⟩
  · rfl
  · obtain ⟨b, more, hbytes, -⟩ := exists_first_byte c
    rw [encoded_cons, hbytes] at hbrace hparen ⊢
    simp only [List.cons_append, List.head?_cons, Option.some.injEq, Option.bind_some] at *
    rw [closerByte?]
    by_cases hopen : c = '{'
    · rw [if_pos (hbrace.mpr hopen), hopen]
      rfl
    by_cases hround : c = '('
    · rw [if_neg (mt hbrace.mp hopen), if_pos (hparen.mpr hround), hround]
      rfl
    · rw [if_neg (mt hbrace.mp hopen), if_neg (mt hparen.mp hround)]
      unfold closerOf?
      split <;> first | rfl | contradiction

/-- The opening of a block, read off its three parts. -/
theorem opening?_eq (text : List Char) :
    opening? text =
      let letters := text.takeWhile isTypeChar
      let tail := (text.dropWhile isTypeChar).dropWhile isAsciiBlank
      (tail.head?.bind closerOf?).bind fun closer =>
        if letters.isEmpty then none
        else some (String.ofList (asciiLower letters), closer,
          text.length - tail.tail.length, tail.tail) := by
  rw [opening?]
  rcases (text.dropWhile isTypeChar).dropWhile isAsciiBlank with - | ⟨opener, rest⟩
  · rfl
  · dsimp only [List.head?_cons, Option.bind_some, List.tail_cons]
    rcases closerOf? opener with - | closer <;> rfl

/-- What an opening is made of: a type, blanks and the delimiter. -/
theorem opening?_eq_some {entryType : String} {n : Nat} {inside : List Char}
    (h : opening? text = some (entryType, closer, n, inside)) :
    ∃ letters gap opener, text = letters ++ gap ++ opener :: inside ∧ letters ≠ [] ∧
      letters.all isTypeChar = true ∧ gap.all isAsciiBlank = true ∧
      closerOf? opener = some closer ∧ entryType = String.ofList (asciiLower letters) := by
  rw [opening?_eq] at h
  have hletters := List.takeWhile_append_dropWhile (p := isTypeChar) (l := text)
  have hgap := List.takeWhile_append_dropWhile (p := isAsciiBlank)
    (l := text.dropWhile isTypeChar)
  rcases htail : (text.dropWhile isTypeChar).dropWhile isAsciiBlank with - | ⟨opener, rest⟩
  · rw [htail] at h
    cases h
  · rw [htail] at h hgap
    obtain ⟨closer', hcloser, hopening⟩ := Option.bind_eq_some_iff.mp h
    split at hopening
    · cases hopening
    · next hne =>
        simp only [List.tail_cons, Option.some.injEq, Prod.mk.injEq] at hopening
        obtain ⟨rfl, rfl, -, rfl⟩ := hopening
        refine ⟨text.takeWhile isTypeChar, (text.dropWhile isTypeChar).takeWhile isAsciiBlank,
          opener, ?_, by simpa using hne, List.all_takeWhile, List.all_takeWhile, hcloser, rfl⟩
        rw [List.append_assoc, hgap, hletters]

theorem bytes_sign (front back : List Char) :
    bytes (front ++ '@' :: back) = bytes front + 1 + bytes back := by
  rw [bytes_append, bytes, ← Nat.add_assoc]
  rfl

theorem drop_encoded_sign (front back : List Char) :
    (encoded (front ++ '@' :: back)).drop (bytes front + 1) = encoded back := by
  have hdrop := drop_encoded_append (front ++ ['@']) back
  rwa [List.append_assoc, List.singleton_append, bytes_sign] at hdrop

/-- **A block is opened** by the same bytes as characters. -/
theorem openingAt?_eq (front back : List Char) :
    openingAt? (front ++ '@' :: back) (bytes front) =
      some ((opening? back).map fun opening =>
        (opening.1, opening.2.1.toUInt8,
          bytes (front ++ '@' :: back) - bytes opening.2.2.2)) := by
  obtain ⟨htake, hdrop⟩ := takeWhile_encoded isAscii_of_isTypeChar back
  have hblanks := (takeWhile_encoded isAscii_of_isAsciiBlank (back.dropWhile isTypeChar)).1
  rw [opening?_eq, openingAt?]
  simp only [drop_encoded_sign, htake, hdrop, hblanks, length_encoded]
  -- the three parts of what follows the sign
  obtain ⟨letters, hletters⟩ : ∃ letters, back.takeWhile isTypeChar = letters := ⟨_, rfl⟩
  obtain ⟨gap, hgap⟩ : ∃ gap, (back.dropWhile isTypeChar).takeWhile isAsciiBlank = gap := ⟨_, rfl⟩
  obtain ⟨tail, htail⟩ : ∃ tail, (back.dropWhile isTypeChar).dropWhile isAsciiBlank = tail :=
    ⟨_, rfl⟩
  have hback : back = letters ++ (gap ++ tail) := by
    rw [← hletters, ← hgap, ← htail, List.takeWhile_append_dropWhile,
      List.takeWhile_append_dropWhile]
  rw [hletters, hgap, htail, hback]
  have hslice : slice? (front ++ '@' :: (letters ++ (gap ++ tail))) (bytes front + 1)
      (bytes front + 1 + bytes letters) = some letters := by
    have hpiece := slice?_append (front ++ ['@']) letters (gap ++ tail)
    rwa [bytes_append _ letters, bytes_sign, List.append_assoc, List.append_assoc,
      List.singleton_append] at hpiece
  have hopener : (encoded (front ++ '@' :: (letters ++ (gap ++ tail))))[bytes front + 1 +
      bytes letters + bytes gap]? = (encoded tail).head? := by
    have hbyte := getElem?_encoded_append (front ++ '@' :: (letters ++ gap)) tail
    rwa [bytes_sign, bytes_append, ← Nat.add_assoc, List.append_assoc, List.cons_append,
      List.append_assoc] at hbyte
  simp only [hslice, hopener, closerByte?_encoded, Option.bind_eq_bind, Option.bind_some,
    Option.pure_def]
  rcases tail with - | ⟨opener, inside⟩
  · rfl
  · rcases hcloser : closerOf? opener with - | closer
    · simp [hcloser]
    · have hone : opener.utf8Size = 1 := by
        rcases closerOf?_eq_some hcloser with ⟨rfl, -⟩ | ⟨rfl, -⟩ <;> rfl
      have hinside : bytes front + 1 + bytes letters + bytes gap + 1
          = bytes (front ++ '@' :: (letters ++ (gap ++ opener :: inside))) - bytes inside := by
        rw [bytes_sign, bytes_append, bytes_append, bytes, hone]
        omega
      simp only [List.head?_cons, Option.bind_some, hcloser, Option.map_some, List.tail_cons,
        hinside]
      cases letters <;> rfl

/-! ### The parts of a body -/

/-- **The key can be cut off.** -/
theorem cutKey?_eq (body : List Char) : cutKey? body = some (splitKey body) := by
  by_cases hmem : ',' ∈ body
  · obtain ⟨key, fieldText, rfl, hkey⟩ := List.eq_append_cons_of_mem hmem
    have hcut : cutAt (· == ',') (key ++ ',' :: fieldText) = some (key, fieldText) :=
      cutAt_append (fun d hd => beq_eq_false_iff_ne.mpr fun h => hkey (h ▸ hd)) rfl
    have hfront : slice? (key ++ ',' :: fieldText) 0 (bytes key) = some key :=
      slice?_append [] key (',' :: fieldText)
    have hback : slice? (key ++ ',' :: fieldText) (bytes key + 1) (bytes (key ++ ',' :: fieldText))
        = some fieldText := by
      have hrest := slice?_rest (key ++ [',']) fieldText
      rwa [List.append_assoc, List.singleton_append, bytes_append key [',']] at hrest
    simp only [cutKey?, splitKey, idxOf?_encoded (show IsAscii ',' by decide) hkey, hcut, hfront,
      hback, Option.bind_eq_bind, Option.bind_some, Option.pure_def]
  · have hcut : cutAt (· == ',') body = none :=
      cutAt_eq_none fun d hd => beq_eq_false_iff_ne.mpr fun h => hmem (h ▸ hd)
    simp only [cutKey?, splitKey, idxOf?_encoded_of_notMem (show IsAscii ',' by decide) hmem, hcut]

/-- **The fields can be cut apart**, from any place between two characters on. -/
theorem cutParts?_from (front part rest : List Char) (depth : Nat) (quoted : Bool) :
    cutParts? (front ++ part ++ rest) (bytes front) (bytes (front ++ part)) depth quoted rest
      = some (attach part (fieldParts depth quoted rest)) := by
  induction rest generalizing front part depth quoted with
  | nil =>
      have hslice : slice? (front ++ part ++ []) (bytes front) (bytes (front ++ part ++ []))
          = some part := slice?_eq_some_iff.mpr ⟨front, [], rfl, rfl, by simp⟩
      rw [cutParts?, hslice, fieldParts, attach, List.append_nil]
      rfl
  | cons c rest ih =>
      by_cases hc : c = ',' ∧ depth = 0 ∧ quoted = false
      · obtain ⟨rfl, rfl, rfl⟩ := hc
        have hslice : slice? (front ++ part ++ ',' :: rest) (bytes front) (bytes (front ++ part))
            = some part := slice?_append front part _
        have hbytes : bytes (front ++ part ++ [',']) = bytes (front ++ part) + 1 := by
          rw [bytes_append]
          rfl
        have hmore := ih (front ++ part ++ [',']) [] 0 false
        rw [attach_nil (fieldParts_ne_nil _ _ _), List.append_nil, List.append_assoc _ [','],
          List.singleton_append, hbytes] at hmore
        have hsize : ','.utf8Size = 1 := rfl
        simp only [cutParts?, beq_self_eq_true, Bool.and_true, Bool.not_false, if_true, hslice,
          hsize, hmore, Option.bind_eq_bind, Option.bind_some, Option.pure_def, fieldParts, attach,
          List.append_nil]
      · have hmore := ih front (part ++ [c]) (depthStep depth c) (quotedStep depth quoted c)
        have hbytes : bytes (front ++ (part ++ [c])) = bytes (front ++ part) + c.utf8Size := by
          rw [← List.append_assoc, bytes_append _ [c]]
          rfl
        rw [hbytes, ← List.append_assoc, List.append_assoc _ [c], List.singleton_append] at hmore
        rw [fieldParts_cons hc, attach_attach, cutParts?, if_neg (by simpa [and_assoc] using hc),
          hmore]

theorem cutParts?_eq (fieldText : List Char) :
    cutParts? fieldText 0 0 0 false fieldText = some (fieldParts 0 false fieldText) := by
  have h := cutParts?_from [] [] fieldText 0 false
  rwa [attach_nil (fieldParts_ne_nil 0 false fieldText)] at h

end LatexIndex.Bib
