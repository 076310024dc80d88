/-
LatexIndex/Proofs/ByteOrder.lean

The order of texts and the order of their bytes.

Texts are compared character by character, and their UTF-8 forms byte by byte.
The form of a character begins with a byte that is greater where more bytes
follow, and its bytes hold the digits of the character, the first one foremost
(`digitBytes`).  So of two characters the form of the smaller one is smaller
within the bytes of both, whatever follows them (`utf8EncodeChar_lt`), and a
smaller text has smaller bytes (`utf8_lt`).
-/

namespace LatexIndex.Text

/-! ### Digits -/

/-- The bytes of a number: a first one that begins at `first`, and `more` bytes
with one digit each. -/
def digitBytes (first : Nat) : Nat → Nat → List UInt8
  | 0, n => [UInt8.ofNat (n + first)]
  | more + 1, n => digitBytes first more (n / 64) ++ [UInt8.ofNat (n % 64 + 128)]

/-- The first byte can hold what is left for it. -/
def DigitsFit (first : Nat) : Nat → Nat → Prop
  | 0, n => n + first < 256
  | more + 1, n => DigitsFit first more (n / 64)

theorem cons_ofNat_lt {a b : Nat} (h : a < b) (hb : b < 256) (xs ys : List UInt8) :
    UInt8.ofNat a :: xs < UInt8.ofNat b :: ys := by
  refine List.cons_lt_cons_iff.mpr (.inl ?_)
  rwa [UInt8.ofNat_lt_iff_lt (Nat.lt_trans h hb) hb]

/-- A smaller number has smaller bytes, whatever follows. -/
theorem digitBytes_lt {first more m n : Nat} (h : m < n) (hfit : DigitsFit first more n)
    (xs ys : List UInt8) : digitBytes first more m ++ xs < digitBytes first more n ++ ys := by
  induction more generalizing m n xs ys with
  | zero => exact cons_ofNat_lt (Nat.add_lt_add_right h first) hfit xs ys
  | succ more ih =>
      rw [digitBytes, digitBytes, List.append_assoc, List.append_assoc]
      by_cases hhigher : m / 64 < n / 64
      · exact ih hhigher hfit _ _
      · -- the higher digits are the same, so the last one decides
        have heq : m / 64 = n / 64 := by omega
        rw [heq]
        refine List.append_left_lt (cons_ofNat_lt ?_ ?_ xs ys)
        · omega
        · omega

/-! ### Characters -/

theorem toNat_lt (c : Char) : c.val.toNat < 0x110000 := by
  rcases c.valid with hc | ⟨-, hc⟩
  · exact Nat.lt_trans hc (by decide)
  · exact hc

theorem utf8EncodeChar_eq (c : Char) :
    String.utf8EncodeChar c =
      if c.val.toNat ≤ 0x7f then digitBytes 0 0 c.val.toNat
      else if c.val.toNat ≤ 0x7ff then digitBytes 0xc0 1 c.val.toNat
      else if c.val.toNat ≤ 0xffff then digitBytes 0xe0 2 c.val.toNat
      else digitBytes 0xf0 3 c.val.toNat := by
  have hmost := toNat_lt c
  unfold String.utf8EncodeChar
  generalize c.val.toNat = n at hmost
  have htwo : n / 64 / 64 = n / 4096 := Nat.div_div_eq_div_mul n 64 64
  have hthree : n / 4096 / 64 = n / 262144 := Nat.div_div_eq_div_mul n 4096 64
  dsimp only [digitBytes, List.cons_append, List.nil_append]
  rw [htwo, hthree]
  -- what is left for the first byte is smaller than the next form begins with
  split
  · rfl
  · split
    · rw [Nat.mod_eq_of_lt (by omega : n / 64 < 32)]
    · split
      · rw [Nat.mod_eq_of_lt (by omega : n / 4096 < 16)]
      · rw [Nat.mod_eq_of_lt (by omega : n / 262144 < 8)]

/-- **The bytes of a smaller character are smaller**, whatever follows. -/
theorem utf8EncodeChar_lt {c d : Char} (h : c < d) (xs ys : List UInt8) :
    String.utf8EncodeChar c ++ xs < String.utf8EncodeChar d ++ ys := by
  have hlt : c.val.toNat < d.val.toNat := UInt32.lt_iff_toNat_lt.mp (Char.lt_def.mp h)
  have hmost := toNat_lt d
  rw [utf8EncodeChar_eq, utf8EncodeChar_eq]
  generalize c.val.toNat = m at hlt
  generalize d.val.toNat = n at hlt hmost
  -- both have one form, or the first byte of the longer one is greater
  split
  · split
    · exact digitBytes_lt hlt (by simp only [DigitsFit]; omega) xs ys
    · split
      · exact cons_ofNat_lt (by omega) (by omega) _ _
      · split
        · exact cons_ofNat_lt (by omega) (by omega) _ _
        · exact cons_ofNat_lt (by omega) (by omega) _ _
  · rw [if_neg (by omega : ¬ n ≤ 0x7f)]
    split
    · split
      · exact digitBytes_lt hlt (by simp only [DigitsFit]; omega) xs ys
      · split
        · exact cons_ofNat_lt (by omega) (by omega) _ _
        · exact cons_ofNat_lt (by omega) (by omega) _ _
    · rw [if_neg (by omega : ¬ n ≤ 0x7ff)]
      split
      · split
        · exact digitBytes_lt hlt (by simp only [DigitsFit]; omega) xs ys
        · exact cons_ofNat_lt (by omega) (by omega) _ _
      · rw [if_neg (by omega : ¬ n ≤ 0xffff)]
        exact digitBytes_lt hlt (by simp only [DigitsFit]; omega) xs ys

/-! ### Texts -/

/-- The bytes of the UTF-8 form of a text. -/
def utf8 (text : String) : List UInt8 :=
  text.toUTF8.data.toList

theorem utf8_eq (text : String) : utf8 text = text.toList.flatMap String.utf8EncodeChar := by
  rw [utf8, String.toUTF8_eq_toByteArray, ← String.utf8Encode_toList]
  exact List.toList_data_toByteArray

theorem utf8EncodeChar_ne_nil (c : Char) : String.utf8EncodeChar c ≠ [] := by
  rw [← List.length_pos_iff, String.length_utf8EncodeChar]
  exact c.utf8Size_pos

/-- **A smaller text has smaller bytes.** -/
theorem utf8_lt {s t : String} (h : s < t) : utf8 s < utf8 t := by
  have hlists : s.toList < t.toList := h
  rw [utf8_eq, utf8_eq]
  generalize s.toList = cs at hlists
  generalize t.toList = ds at hlists
  induction cs generalizing ds with
  | nil =>
      rcases ds with - | ⟨d, ds⟩
      · exact absurd hlists (List.not_lt_nil [])
      · obtain ⟨b, bs, hbytes⟩ := List.exists_cons_of_ne_nil (utf8EncodeChar_ne_nil d)
        rw [List.flatMap_cons, hbytes]
        exact List.nil_lt_cons b _
  | cons c cs ih =>
      rcases ds with - | ⟨d, ds⟩
      · exact absurd hlists (List.not_lt_nil _)
      · rw [List.flatMap_cons, List.flatMap_cons]
        rcases List.cons_lt_cons_iff.mp hlists with hcd | ⟨rfl, hrest⟩
        · exact utf8EncodeChar_lt hcd _ _
        · exact List.append_left_lt (ih ds hrest)

end LatexIndex.Text
