/-
LatexIndex/Proofs/ByteText.lean

Texts as bytes, and cutting them there.

In the UTF-8 form of a text an ASCII character is one byte of the same number, and
the bytes of all other characters are 128 or more.  So a byte below 128 is never in
the middle of a character: where the bytes of a text fall apart at one, the text does
(`encoded_eq_append`), and runs of ASCII characters are the same runs of bytes
(`takeWhile_encoded`).

A text can be cut only between two characters.  `slice?` is the piece between two
byte offsets, if both are such places; that it succeeds means that the two offsets
are in range, in order and on boundaries (`slice?_eq_some_iff`).
-/
import LatexIndex.Proofs.ByteOrder
import LatexIndex.Text.Blank
import LatexIndex.Text.Width

namespace LatexIndex.Text

variable {text front back piece : List Char} {c : Char} {b : UInt8} {xs ys : List UInt8}
  {p : Char → Bool} {i j n : Nat}

/-! ### The bytes of a text -/

/-- The bytes of a text. -/
def encoded (text : List Char) : List UInt8 :=
  text.flatMap String.utf8EncodeChar

@[simp] theorem encoded_nil : encoded [] = [] := rfl

theorem encoded_cons (c : Char) (text : List Char) :
    encoded (c :: text) = String.utf8EncodeChar c ++ encoded text := rfl

@[simp] theorem encoded_append (front back : List Char) :
    encoded (front ++ back) = encoded front ++ encoded back :=
  List.flatMap_append

@[simp] theorem length_encoded (text : List Char) : (encoded text).length = bytes text := by
  induction text with
  | nil => rfl
  | cons c text ih => rw [encoded_cons, List.length_append, String.length_utf8EncodeChar, ih, bytes]

theorem drop_encoded_append (front back : List Char) :
    (encoded (front ++ back)).drop (bytes front) = encoded back := by
  rw [encoded_append, ← length_encoded, List.drop_left]

theorem getElem?_encoded_append (front back : List Char) :
    (encoded (front ++ back))[bytes front]? = (encoded back).head? := by
  rw [encoded_append, ← length_encoded, List.getElem?_append_right (Nat.le_refl _), Nat.sub_self,
    List.head?_eq_getElem?]

theorem utf8_inj {s t : String} (h : utf8 s = utf8 t) : s = t := by
  refine String.toByteArray_inj.mp (ByteArray.ext ?_)
  exact Array.toList_inj.mp h

theorem encoded_inj (h : encoded front = encoded back) : front = back := by
  refine String.ofList_inj.mp (utf8_inj ?_)
  rwa [utf8_eq, utf8_eq, String.toList_ofList, String.toList_ofList]

theorem encoded_eq_nil_iff : encoded text = [] ↔ text = [] :=
  ⟨fun h => encoded_inj h, fun h => by rw [h]; rfl⟩

/-- A character of one byte. -/
def IsAscii (c : Char) : Prop :=
  c.toNat < 128

instance (c : Char) : Decidable (IsAscii c) :=
  inferInstanceAs (Decidable (_ < _))

theorem isAscii_of_isAsciiBlank (c : Char) (h : isAsciiBlank c = true) : IsAscii c := by
  simp only [isAsciiBlank, Bool.or_eq_true, beq_iff_eq] at h
  rcases h with (((rfl | rfl) | rfl) | rfl) | rfl <;> decide

theorem utf8EncodeChar_of_isAscii (h : IsAscii c) : String.utf8EncodeChar c = [c.toUInt8] := by
  have hle : c.val.toNat ≤ 0x7f := Nat.le_of_lt_succ h
  rw [utf8EncodeChar_eq, if_pos hle]
  rfl

theorem le_of_mem_digitBytes {first more m : Nat} (hfirst : 128 ≤ first)
    (hfit : DigitsFit first more m) (hb : b ∈ digitBytes first more m) : 128 ≤ b.toNat := by
  induction more generalizing m with
  | zero =>
      have hlt : m + first < 256 := hfit
      rw [List.mem_singleton.mp hb, UInt8.toNat_ofNat_of_lt' hlt]
      omega
  | succ more ih =>
      rcases List.mem_append.mp hb with hb | hb
      · exact ih hfit hb
      · have hlt : m % 64 + 128 < 256 := by omega
        rw [List.mem_singleton.mp hb, UInt8.toNat_ofNat_of_lt' hlt]
        omega

/-- The bytes of all other characters are no ASCII characters. -/
theorem le_of_mem_utf8EncodeChar (h : ¬ IsAscii c) (hb : b ∈ String.utf8EncodeChar c) :
    128 ≤ b.toNat := by
  have hmost := toNat_lt c
  have hleast : 128 ≤ c.val.toNat := Nat.le_of_not_lt h
  rw [utf8EncodeChar_eq, if_neg (by omega)] at hb
  split at hb
  · exact le_of_mem_digitBytes (by decide) (by simp only [DigitsFit]; omega) hb
  · split at hb
    · exact le_of_mem_digitBytes (by decide) (by simp only [DigitsFit]; omega) hb
    · exact le_of_mem_digitBytes (by decide) (by simp only [DigitsFit]; omega) hb

theorem encoded_cons_of_isAscii (h : IsAscii c) (text : List Char) :
    encoded (c :: text) = c.toUInt8 :: encoded text := by
  rw [encoded_cons, utf8EncodeChar_of_isAscii h]
  rfl

theorem toNat_toUInt8 (h : IsAscii c) : c.toUInt8.toNat = c.toNat :=
  Nat.mod_eq_of_lt (Nat.lt_trans h (by decide))

theorem toUInt8_inj {d : Char} (hc : IsAscii c) (hd : IsAscii d) (h : c.toUInt8 = d.toUInt8) :
    c = d := by
  have hnat := congrArg UInt8.toNat h
  rw [toNat_toUInt8 hc, toNat_toUInt8 hd] at hnat
  exact Char.toNat_inj.mp hnat

theorem toUInt8_eq_iff {d : Char} (hc : IsAscii c) (hd : IsAscii d) :
    c.toUInt8 = d.toUInt8 ↔ c = d :=
  ⟨toUInt8_inj hc hd, fun h => by rw [h]⟩

theorem utf8Size_of_isAscii (h : IsAscii c) : c.utf8Size = 1 := by
  rw [← String.length_utf8EncodeChar, utf8EncodeChar_of_isAscii h, List.length_singleton]

/-- The bytes of a character hold no other ASCII character. -/
theorem toUInt8_notMem_utf8EncodeChar {d : Char} (hd : IsAscii d) (h : c ≠ d) :
    d.toUInt8 ∉ String.utf8EncodeChar c := by
  intro hmem
  by_cases hc : IsAscii c
  · rw [utf8EncodeChar_of_isAscii hc, List.mem_singleton] at hmem
    exact h (toUInt8_inj hc hd hmem.symm)
  · have hle := le_of_mem_utf8EncodeChar hc hmem
    rw [toNat_toUInt8 hd] at hle
    exact absurd hd (Nat.not_lt_of_le hle)

theorem toUInt8_mem_encoded_iff {d : Char} (hd : IsAscii d) :
    d.toUInt8 ∈ encoded text ↔ d ∈ text := by
  rw [encoded, List.mem_flatMap]
  constructor
  · rintro ⟨c, hc, hbyte⟩
    by_cases hcd : c = d
    · rwa [← hcd]
    · exact absurd hbyte (toUInt8_notMem_utf8EncodeChar hd hcd)
  · intro hmem
    refine ⟨d, hmem, ?_⟩
    rw [utf8EncodeChar_of_isAscii hd]
    exact List.mem_singleton_self _

theorem count_encoded {d : Char} (hd : IsAscii d) (text : List Char) :
    (encoded text).count d.toUInt8 = text.count d := by
  induction text with
  | nil => rfl
  | cons c text ih =>
      rw [encoded_cons, List.count_append, ih, List.count_cons, Nat.add_comm]
      congr 1
      by_cases hcd : c = d
      · rw [hcd, utf8EncodeChar_of_isAscii hd]
        simp
      · rw [List.count_eq_zero.mpr (toUInt8_notMem_utf8EncodeChar hd hcd)]
        simp [hcd]

/-- Only the first byte of a character can be an ASCII character. -/
theorem exists_first_byte (c : Char) : ∃ b more, String.utf8EncodeChar c = b :: more ∧
    ∀ d : Char, IsAscii d → d.toUInt8 ∉ more := by
  obtain ⟨b, more, hbytes⟩ := List.exists_cons_of_ne_nil (utf8EncodeChar_ne_nil c)
  refine ⟨b, more, hbytes, fun d hd hmem => ?_⟩
  by_cases hc : IsAscii c
  · rw [utf8EncodeChar_of_isAscii hc] at hbytes
    rw [← (List.cons.inj hbytes).2] at hmem
    cases hmem
  · have hle := le_of_mem_utf8EncodeChar hc (hbytes ▸ List.mem_cons_of_mem b hmem)
    rw [toNat_toUInt8 hd] at hle
    exact absurd hd (Nat.not_lt_of_le hle)

/-- A text begins with an ASCII character exactly if its bytes do. -/
theorem head?_encoded_iff (hc : IsAscii c) :
    (encoded text).head? = some c.toUInt8 ↔ text.head? = some c := by
  rcases text with - | ⟨d, text⟩
  · simp
  · obtain ⟨b, more, hbytes, -⟩ := exists_first_byte d
    rw [encoded_cons, hbytes, List.cons_append, List.head?_cons, List.head?_cons,
      Option.some.injEq, Option.some.injEq]
    constructor
    · rintro rfl
      have hmem : c.toUInt8 ∈ String.utf8EncodeChar d := hbytes ▸ List.mem_cons_self
      exact Decidable.of_not_not fun hne => toUInt8_notMem_utf8EncodeChar hc hne hmem
    · rintro rfl
      rw [utf8EncodeChar_of_isAscii hc] at hbytes
      exact (List.cons.inj hbytes).1.symm

/-! ### Bytes of characters -/

/-- **Where the bytes of a text fall apart at an ASCII character**, the text does. -/
theorem encoded_eq_append (hc : IsAscii c) (h : encoded text = xs ++ c.toUInt8 :: ys) :
    ∃ front back, text = front ++ c :: back ∧ encoded front = xs ∧ encoded back = ys := by
  induction text generalizing xs with
  | nil => simp at h
  | cons d text ih =>
      by_cases hd : IsAscii d
      · rw [encoded_cons_of_isAscii hd] at h
        rcases xs with - | ⟨x, xs⟩
        · obtain ⟨hdc, rfl⟩ := List.cons.inj h
          obtain rfl := toUInt8_inj hd hc hdc
          exact ⟨[], text, rfl, rfl, rfl⟩
        · obtain ⟨rfl, hmore⟩ := List.cons.inj h
          obtain ⟨front, back, rfl, rfl, rfl⟩ := ih hmore
          exact ⟨d :: front, back, rfl, encoded_cons_of_isAscii hd front, rfl⟩
      · rw [encoded_cons] at h
        rcases List.append_eq_append_iff.mp h with ⟨zs, rfl, hmore⟩ | ⟨zs, hbytes, hmore⟩
        · obtain ⟨front, back, rfl, rfl, rfl⟩ := ih hmore
          exact ⟨d :: front, back, rfl, rfl, rfl⟩
        · rcases zs with - | ⟨z, zs⟩
          · obtain ⟨front, back, rfl, hfront, rfl⟩ := @ih [] hmore.symm
            refine ⟨d :: front, back, rfl, ?_, rfl⟩
            rw [encoded_cons, hfront, hbytes, List.append_nil, List.append_nil]
          · -- the character would be in the middle of another one
            obtain ⟨rfl, -⟩ := List.cons.inj hmore
            have hle := le_of_mem_utf8EncodeChar hd (b := c.toUInt8) (by simp [hbytes])
            rw [toNat_toUInt8 hc] at hle
            exact absurd hc (Nat.not_lt_of_le hle)

theorem idxOf?_encoded_of_notMem (hc : IsAscii c) (h : c ∉ text) :
    (encoded text).idxOf? c.toUInt8 = none :=
  List.idxOf?_eq_none_iff.mpr fun hmem => h ((toUInt8_mem_encoded_iff hc).mp hmem)

/-- The first byte that is a given ASCII character is that character. -/
theorem idxOf?_encoded (hc : IsAscii c) (h : c ∉ front) (back : List Char) :
    (encoded (front ++ c :: back)).idxOf? c.toUInt8 = some (bytes front) := by
  rw [encoded_append, encoded_cons_of_isAscii hc, List.idxOf?, List.findIdx?_append]
  have hfront := idxOf?_encoded_of_notMem hc h
  rw [List.idxOf?] at hfront
  rw [hfront, List.findIdx?_cons]
  simp

/-- A test of characters, made of bytes. -/
def onByte (p : Char → Bool) (b : UInt8) : Bool :=
  p (Char.ofNat b.toNat)

theorem toNat_ofNat_byte (b : UInt8) : (Char.ofNat b.toNat).toNat = b.toNat := by
  have hb : b.toNat < 256 := b.toNat_lt
  rw [Char.ofNat, dif_pos (.inl (by omega))]
  rfl

theorem onByte_toUInt8 (h : IsAscii c) : onByte p c.toUInt8 = p c := by
  rw [onByte, toNat_toUInt8 h, Char.ofNat_toNat]

theorem onByte_of_le (hp : ∀ c, p c = true → IsAscii c) (h : 128 ≤ b.toNat) :
    onByte p b = false := by
  rw [← Bool.not_eq_true]
  intro hb
  have hascii := hp _ hb
  rw [IsAscii, toNat_ofNat_byte] at hascii
  omega

theorem exists_of_onByte (hp : ∀ c, p c = true → IsAscii c) (h : onByte p b = true) :
    ∃ c, p c = true ∧ IsAscii c ∧ b = c.toUInt8 := by
  have hascii := hp _ h
  refine ⟨_, h, hascii, ?_⟩
  rw [← UInt8.toNat_inj, toNat_toUInt8 hascii, toNat_ofNat_byte]

/-- **Runs of ASCII characters are runs of bytes.** -/
theorem takeWhile_encoded (hp : ∀ c, p c = true → IsAscii c) (text : List Char) :
    (encoded text).takeWhile (onByte p) = encoded (text.takeWhile p) ∧
      (encoded text).dropWhile (onByte p) = encoded (text.dropWhile p) := by
  induction text with
  | nil => exact ⟨rfl, rfl⟩
  | cons c text ih =>
      by_cases hc : p c = true
      · have hascii := hp c hc
        have hbyte : onByte p c.toUInt8 = true := by rw [onByte_toUInt8 hascii, hc]
        rw [encoded_cons_of_isAscii hascii, List.takeWhile_cons_of_pos hbyte,
          List.dropWhile_cons_of_pos hbyte, List.takeWhile_cons_of_pos hc,
          List.dropWhile_cons_of_pos hc, encoded_cons_of_isAscii hascii, ih.1, ih.2]
        exact ⟨rfl, rfl⟩
      · have hstop : ∀ d ∈ String.utf8EncodeChar c, onByte p d = false := by
          intro d hd
          by_cases hascii : IsAscii c
          · rw [utf8EncodeChar_of_isAscii hascii] at hd
            rw [List.mem_singleton.mp hd, onByte_toUInt8 hascii]
            simpa using hc
          · exact onByte_of_le hp (le_of_mem_utf8EncodeChar hascii hd)
        obtain ⟨d, ds, hbytes⟩ := List.exists_cons_of_ne_nil (utf8EncodeChar_ne_nil c)
        have hd : ¬ onByte p d = true := by
          rw [hstop d (by simp [hbytes])]
          exact Bool.false_ne_true
        rw [List.takeWhile_cons_of_neg hc, List.dropWhile_cons_of_neg hc, encoded_cons, hbytes,
          List.cons_append, List.takeWhile_cons_of_neg hd, List.dropWhile_cons_of_neg hd]
        exact ⟨rfl, rfl⟩

/-! ### Cutting -/

/-- What stands before and after a byte offset, if that is between two characters. -/
def cutBytes? (n : Nat) : List Char → Option (List Char × List Char)
  | [] => if n = 0 then some ([], []) else none
  | c :: rest =>
    if n = 0 then some ([], c :: rest)
    else if c.utf8Size ≤ n then
      (cutBytes? (n - c.utf8Size) rest).map (Prod.map (c :: ·) id)
    else none

/-- The piece between two byte offsets. -/
def slice? (text : List Char) (i j : Nat) : Option (List Char) :=
  (cutBytes? j text).bind fun cut => (cutBytes? i cut.1).map (·.2)

theorem cutBytes?_append (front back : List Char) :
    cutBytes? (bytes front) (front ++ back) = some (front, back) := by
  induction front with
  | nil => cases back <;> simp [cutBytes?, bytes]
  | cons c front ih =>
      have hpos := c.utf8Size_pos
      have hsub : c.utf8Size + bytes front - c.utf8Size = bytes front := by omega
      rw [bytes, List.cons_append, cutBytes?, if_neg (by omega), if_pos (by omega), hsub, ih]
      rfl

theorem cutBytes?_eq_some_iff :
    cutBytes? n text = some (front, back) ↔ text = front ++ back ∧ bytes front = n := by
  refine ⟨fun h => ?_, fun h => by rw [h.1, ← h.2, cutBytes?_append]⟩
  induction text generalizing n front with
  | nil =>
      rw [cutBytes?] at h
      split at h
      · next hn =>
          obtain ⟨rfl, rfl⟩ := Prod.mk.inj (Option.some.inj h)
          exact ⟨rfl, hn.symm⟩
      · cases h
  | cons c text ih =>
      rw [cutBytes?] at h
      split at h
      · next hn =>
          obtain ⟨rfl, rfl⟩ := Prod.mk.inj (Option.some.inj h)
          exact ⟨rfl, hn.symm⟩
      · split at h
        · next hle =>
            obtain ⟨⟨front', back'⟩, hcut, heq⟩ := Option.map_eq_some_iff.mp h
            obtain ⟨rfl, rfl⟩ := Prod.mk.inj heq
            obtain ⟨rfl, hbytes⟩ := ih hcut
            exact ⟨rfl, by rw [bytes, hbytes]; omega⟩
        · cases h

/-- **A slice succeeds exactly between boundaries**, and is what stands there. -/
theorem slice?_eq_some_iff :
    slice? text i j = some piece ↔ ∃ front back, text = front ++ piece ++ back ∧
      bytes front = i ∧ bytes (front ++ piece) = j := by
  constructor
  · intro h
    obtain ⟨⟨upTo, back⟩, hcut, hpiece⟩ := Option.bind_eq_some_iff.mp h
    obtain ⟨⟨front, piece'⟩, hcut', rfl⟩ := Option.map_eq_some_iff.mp hpiece
    obtain ⟨rfl, hj⟩ := cutBytes?_eq_some_iff.mp hcut
    obtain ⟨rfl, hi⟩ := cutBytes?_eq_some_iff.mp hcut'
    exact ⟨front, back, rfl, hi, hj⟩
  · rintro ⟨front, back, rfl, rfl, rfl⟩
    rw [slice?, cutBytes?_append, Option.bind_some, cutBytes?_append]
    rfl

/-- A piece of a text can be cut out. -/
theorem slice?_append (front piece back : List Char) :
    slice? (front ++ piece ++ back) (bytes front) (bytes (front ++ piece)) = some piece :=
  slice?_eq_some_iff.mpr ⟨front, back, rfl, rfl, rfl⟩

theorem slice?_rest (front back : List Char) :
    slice? (front ++ back) (bytes front) (bytes (front ++ back)) = some back :=
  slice?_eq_some_iff.mpr ⟨front, [], (List.append_nil _).symm, rfl, rfl⟩

end LatexIndex.Text
