/-
LatexIndex/Proofs/BraceDepth.lean

Where the braces of an argument match, told by counting bytes.

A backslash takes the byte after it out of the count, whatever that byte is; of a
longer character only the first byte goes with it, but none of the others is a brace
or a backslash (`shifts_escape`).  So counting bytes and reading characters agree: an
argument ends at the byte where as many braces are closed as were opened, and for the
first time so (`firstReturn_iff`).  Up to there no more braces are closed than were
opened (`noneMissing_of_read`).
-/
import LatexIndex.Proofs.ByteText
import LatexIndex.Proofs.Directives

namespace LatexIndex.Markup

open Text

variable {text body : List Char} {c : Char} {b : UInt8} {ws xs ys : List UInt8}
  {depth depth' j k n w o e : Nat}

/-! ### Counting -/

/-- The bytes that count, each in its place.  A backslash, and the byte that it takes
along, do not. -/
def counted (taken : Bool) : List UInt8 → List (Option UInt8)
  | [] => []
  | b :: rest =>
    if taken then none :: counted false rest
    else if b = '\\'.toUInt8 then none :: counted true rest
    else some b :: counted false rest

/-- How often a character counts among the first `n` bytes. -/
def countIn (c : Char) (n : Nat) (xs : List UInt8) : Nat :=
  ((counted false xs).take n).count (some c.toUInt8)

/-- Among the first `n` bytes no more braces are closed than opened. -/
def NoneMissing (n : Nat) (xs : List UInt8) : Prop :=
  countIn '}' n xs ≤ countIn '{' n xs

/-- At byte `k`, and at none before it, as many braces are closed as were opened. -/
structure FirstReturn (xs : List UInt8) (k : Nat) : Prop where
  inside : k < xs.length
  level : countIn '}' (k + 1) xs = countIn '{' (k + 1) xs
  first : ∀ j, 0 < j → j ≤ k → countIn '}' j xs ≠ countIn '{' j xs

theorem FirstReturn.unique (hj : FirstReturn xs j) (hk : FirstReturn xs k) : j = k := by
  rcases Nat.lt_trichotomy j k with h | h | h
  · exact absurd hj.level (hk.first (j + 1) (by omega) h)
  · exact h
  · exact absurd hk.level (hj.first (k + 1) (by omega) h)

theorem countIn_zero (c : Char) (xs : List UInt8) : countIn c 0 xs = 0 := by
  simp [countIn]

theorem countIn_nil (c : Char) (n : Nat) : countIn c n [] = 0 := by
  simp [countIn, counted]

theorem countIn_cons (hb : b ≠ '\\'.toUInt8) (c : Char) (n : Nat) (xs : List UInt8) :
    countIn c n (b :: xs) = countIn c (n - 1) xs + if 0 < n ∧ b = c.toUInt8 then 1 else 0 := by
  rcases n with - | n
  · simp [countIn]
  · rw [countIn, counted, if_neg Bool.false_ne_true, if_neg hb, List.take_succ_cons,
      List.count_cons, countIn, Nat.add_sub_cancel]
    simp

/-! ### What the first bytes add -/

/-- The bytes `xs` are `w` bytes, of which at most the first opens or closes a brace
(so `o` and `e` say), and then `ys`. -/
def Shifts (w o e : Nat) (xs ys : List UInt8) : Prop :=
  ∀ n, countIn '{' n xs = countIn '{' (n - w) ys + min n o ∧
    countIn '}' n xs = countIn '}' (n - w) ys + min n e

/-- A character of one byte that is no backslash adds itself. -/
theorem shifts_ascii (c : Char) (hascii : IsAscii c) (hc : c ≠ '\\') (text : List Char) :
    Shifts c.utf8Size ([c].count '{') ([c].count '}') (encoded (c :: text)) (encoded text) := by
  intro n
  rw [utf8Size_of_isAscii hascii]
  have hplain : c.toUInt8 ≠ '\\'.toUInt8 := fun h => hc (toUInt8_inj hascii (by decide) h)
  have hcount : ∀ d, IsAscii d → countIn d n (encoded (c :: text)) =
      countIn d (n - 1) (encoded text) + min n ([c].count d) := by
    intro d hd
    have hsame : c.toUInt8 = d.toUInt8 ↔ c = d := ⟨toUInt8_inj hascii hd, congrArg _⟩
    rw [encoded_cons_of_isAscii hascii, countIn_cons hplain, List.count_singleton]
    rcases n with - | n
    · simp
    · by_cases h : c = d <;> simp [hsame, h]
  exact ⟨hcount '{' (by decide), hcount '}' (by decide)⟩

/-- Bytes that add nothing. -/
theorem shifts_of_counted {vs : List (Option UInt8)}
    (h : counted false (ws ++ ys) = vs ++ counted false ys) (hlength : vs.length = ws.length)
    (hopen : some '{'.toUInt8 ∉ vs) (hclose : some '}'.toUInt8 ∉ vs) :
    Shifts ws.length 0 0 (ws ++ ys) ys := by
  intro n
  have hcount : ∀ c : Char, some c.toUInt8 ∉ vs →
      countIn c n (ws ++ ys) = countIn c (n - ws.length) ys + min n 0 := by
    intro c hc
    have hnone : (vs.take n).count (some c.toUInt8) = 0 :=
      List.count_eq_zero.mpr fun hmem => hc (List.mem_of_mem_take hmem)
    rw [countIn, h, List.take_append, List.count_append, hnone, hlength, Nat.zero_add,
      Nat.min_zero, Nat.add_zero]
    rfl
  exact ⟨hcount _ hopen, hcount _ hclose⟩

theorem counted_of_plain (h : '\\'.toUInt8 ∉ ws) (ys : List UInt8) :
    counted false (ws ++ ys) = ws.map some ++ counted false ys := by
  induction ws with
  | nil => rfl
  | cons w ws ih =>
      rw [List.mem_cons, not_or] at h
      rw [List.cons_append, counted, if_neg Bool.false_ne_true, if_neg (Ne.symm h.1), ih h.2]
      rfl

/-- A character that is neither a brace nor a backslash before another character. -/
theorem shifts_char (hescape : ∀ d rest, c = '\\' → text = d :: rest → False)
    (hopen : c ≠ '{') (hclose : c ≠ '}') :
    Shifts c.utf8Size 0 0 (encoded (c :: text)) (encoded text) := by
  by_cases hc : c = '\\'
  · subst hc
    obtain rfl : text = [] := by
      rcases text with - | ⟨d, rest⟩
      · rfl
      · exact (hescape d rest rfl rfl).elim
    have hlone : counted false (['\\'.toUInt8] ++ []) = [none] ++ counted false [] := rfl
    exact shifts_of_counted hlone rfl (by simp) (by simp)
  · have hplain := counted_of_plain (toUInt8_notMem_utf8EncodeChar (by decide) hc)
      (encoded text)
    have h := shifts_of_counted hplain (by simp)
      (by simpa using toUInt8_notMem_utf8EncodeChar (by decide) hopen)
      (by simpa using toUInt8_notMem_utf8EncodeChar (by decide) hclose)
    rwa [String.length_utf8EncodeChar] at h

/-- A backslash takes the whole character after it along, though only its first byte
is left out of the count. -/
theorem shifts_escape (c : Char) (text : List Char) :
    Shifts ('\\'.utf8Size + c.utf8Size) 0 0 (encoded ('\\' :: c :: text)) (encoded text) := by
  obtain ⟨b, more, hbytes, hmore⟩ := exists_first_byte c
  have hcounted : counted false (('\\'.toUInt8 :: b :: more) ++ encoded text)
      = (none :: none :: more.map some) ++ counted false (encoded text) := by
    have h := counted_of_plain (hmore '\\' (by decide)) (encoded text)
    simp [counted, h]
  have h := shifts_of_counted hcounted (by simp) (by simpa using hmore '{' (by decide))
    (by simpa using hmore '}' (by decide))
  rw [encoded_cons_of_isAscii (by decide), encoded_cons, ← String.length_utf8EncodeChar c, hbytes,
    Nat.add_comm]
  exact h

/-! ### Arguments -/

/-- No more braces are closed among the first `n` bytes than opened there and before. -/
def Holds (depth n : Nat) (xs : List UInt8) : Prop :=
  countIn '}' n xs ≤ countIn '{' n xs + depth

/-- What counting shows of bytes that follow `depth` and one more open braces.  If the
last of these is closed after `n` bytes, it is closed there and not before; otherwise
it is not closed at all. -/
def Settled (depth : Nat) (xs : List UInt8) : Option Nat → Prop
  | some n => countIn '}' (n + 1) xs = countIn '{' (n + 1) xs + depth + 1 ∧
      ∀ j ≤ n, Holds depth j xs
  | none => ∀ j, Holds depth j xs

theorem Shifts.holds (h : Shifts w o e xs ys) (ho : o ≤ 1) (hdepth : depth' + e = depth + o)
    (hys : Holds depth' (n - w) ys) : Holds depth n xs := by
  obtain ⟨hopen, hclose⟩ := h n
  rw [Holds] at hys ⊢
  rcases n with - | n
  · rw [countIn_zero, countIn_zero]
    exact Nat.zero_le _
  · omega

theorem Shifts.settled {stop? : Option Nat} (h : Shifts w o e xs ys) (ho : o ≤ 1) (he : e ≤ 1)
    (hdepth : depth' + e = depth + o) (hys : Settled depth' ys stop?) :
    Settled depth xs (stop?.map (w + ·)) := by
  cases stop? with
  | none => exact fun j => h.holds ho hdepth (hys _)
  | some n =>
      obtain ⟨hlevel, hbefore⟩ := hys
      obtain ⟨hopen, hclose⟩ := h (w + (n + 1))
      rw [Nat.add_sub_cancel_left] at hopen hclose
      rw [Option.map_some, Settled, Nat.add_assoc w n 1]
      refine ⟨by omega, fun j hj => h.holds ho hdepth (hbefore _ (by omega))⟩

/-- **Reading characters and counting bytes agree** on where an argument ends. -/
theorem settled_braceBody (depth : Nat) (text : List Char) :
    Settled depth (encoded text) ((braceBody depth text).map bytes) := by
  induction depth, text using braceBody.induct with
  | case1 depth => exact fun j => by simp [Holds, countIn_nil, encoded_nil]
  | case2 depth c text ih =>
      have h := (shifts_escape c text).settled (by omega) (by omega) rfl ih
      simpa [braceBody, bytes, Function.comp_def, Nat.add_assoc] using h
  | case3 depth text ih =>
      have h := (shifts_ascii '{' (by decide) (by decide) text).settled (by decide) (by decide)
        rfl ih
      simpa [braceBody, bytes, Function.comp_def] using h
  | case4 text =>
      have hcounts : Shifts 1 0 1 (encoded ('}' :: text)) (encoded text) :=
        shifts_ascii '}' (by decide) (by decide) text
      obtain ⟨hopen, hclose⟩ := hcounts 1
      rw [Nat.sub_self, countIn_zero] at hopen hclose
      refine ⟨by simp [bytes, hopen, hclose], fun j hj => ?_⟩
      obtain rfl : j = 0 := by simpa [bytes] using hj
      simp [Holds, countIn_zero]
  | case5 text depth ih =>
      have h := (shifts_ascii '}' (by decide) (by decide) text).settled (by decide) (by decide)
        rfl ih
      simpa [braceBody, bytes, Function.comp_def] using h
  | case6 depth c text hescape hopen hclose ih =>
      have h := (shifts_char hescape hopen hclose).settled (by omega) (by omega) rfl ih
      simpa [braceBody.eq_6 _ _ _ hescape hopen hclose, bytes, Function.comp_def] using h

/-- **The end of an argument** is the byte where the depth first returns to zero. -/
theorem firstReturn_iff :
    FirstReturn (encoded ('{' :: text)) k ↔
      ∃ body, braceBody 0 text = some body ∧ k = bytes body + 1 := by
  have hsettled := settled_braceBody 0 text
  have hcounts : Shifts 1 1 0 (encoded ('{' :: text)) (encoded text) :=
    shifts_ascii '{' (by decide) (by decide) text
  rcases hbody : braceBody 0 text with - | body
  · rw [hbody] at hsettled
    refine ⟨fun h => ?_, fun ⟨_, h, _⟩ => by cases h⟩
    have hlevel := h.level
    obtain ⟨hopen, hclose⟩ := hcounts (k + 1)
    have hholds := hsettled k
    rw [Nat.add_sub_cancel] at hopen hclose
    rw [Holds] at hholds
    omega
  · rw [hbody] at hsettled
    obtain ⟨hlevel, hbefore⟩ := hsettled
    have hreturn : FirstReturn (encoded ('{' :: text)) (bytes body + 1) := by
      refine ⟨?_, ?_, ?_⟩
      · obtain ⟨rest, rfl, -⟩ := braceBody_closes hbody
        rw [length_encoded, bytes, bytes_append, bytes, utf8Size_of_isAscii (by decide)]
        have hpos := Char.utf8Size_pos '}'
        omega
      · obtain ⟨hopen, hclose⟩ := hcounts (bytes body + 1 + 1)
        rw [Nat.add_sub_cancel] at hopen hclose
        omega
      · intro j hpos hj
        obtain ⟨hopen, hclose⟩ := hcounts j
        have hholds := hbefore (j - 1) (by omega)
        rw [Holds] at hholds
        omega
    constructor
    · exact fun h => ⟨body, rfl, h.unique hreturn⟩
    · rintro ⟨_, h, rfl⟩
      cases h
      exact hreturn

/-- As long as an argument is read, no brace is closed that was not opened. -/
theorem noneMissing_of_read (h : ∀ k, FirstReturn (encoded ('{' :: text)) k → n ≤ k + 1) :
    NoneMissing n (encoded ('{' :: text)) := by
  have hsettled := settled_braceBody 0 text
  have hcounts : Shifts 1 1 0 (encoded ('{' :: text)) (encoded text) :=
    shifts_ascii '{' (by decide) (by decide) text
  obtain ⟨hopen, hclose⟩ := hcounts n
  rw [NoneMissing]
  have hholds : Holds 0 (n - 1) (encoded text) → countIn '}' n (encoded ('{' :: text)) ≤
      countIn '{' n (encoded ('{' :: text)) := by
    intro hholds
    rw [Holds] at hholds
    omega
  rcases hbody : braceBody 0 text with - | body
  · rw [hbody] at hsettled
    exact hholds (hsettled _)
  · rw [hbody] at hsettled
    obtain ⟨hlevel, hbefore⟩ := hsettled
    have hn := h _ (firstReturn_iff.mpr ⟨body, hbody, rfl⟩)
    rcases Nat.lt_or_ge (bytes body + 1) n with hlast | hearly
    · obtain rfl : n = bytes body + 1 + 1 := by omega
      rw [Nat.add_sub_cancel] at hopen hclose
      omega
    · exact hholds (hbefore _ (by omega))

end LatexIndex.Markup
