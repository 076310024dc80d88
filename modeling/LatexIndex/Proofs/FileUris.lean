/-
LatexIndex/Proofs/FileUris.lean

The URI of a file tells which file it is.

A byte of a name is written as itself or as an escape, and its first character shows
which of the two it is; so bytes can be told apart whatever follows them
(`encodeByte_append_inj`), and names by their bytes.  No slash is written for a byte,
so the slashes of a URI are those between the names of its path.  Two absolute paths
thus have one URI exactly if they are the same path (`ofPath_eq_iff`).
-/
import LatexIndex.Proofs.ByteText
import LatexIndex.Proofs.Exploration
import LatexIndex.Proofs.PlainPaths
import LatexIndex.Server.Uri

namespace LatexIndex

/-! ### Bytes of a text -/

namespace Text

theorem toList_loop_eq (bytes : ByteArray) (i : Nat) (read : List UInt8) :
    ByteArray.toList.loop bytes i read = read.reverse ++ bytes.data.toList.drop i := by
  fun_induction ByteArray.toList.loop bytes i read with
  | case1 i read hi ih =>
      have hget : bytes.get! i = bytes.data.toList[i] := getElem!_pos bytes.data i hi
      rw [ih, List.reverse_cons, List.append_assoc, List.singleton_append, hget,
        List.getElem_cons_drop]
  | case2 i read hi =>
      rw [List.drop_of_length_le (Nat.le_of_not_lt hi), List.append_nil]

theorem toList_toUTF8_eq (text : String) : text.toUTF8.toList = utf8 text :=
  toList_loop_eq text.toUTF8 0 []

end Text

namespace Uri

open Text

variable {a b : UInt8} {as bs : List Char} {p q : Path}

/-! ### Bytes -/

theorem escapeDigit_inj {m n : Nat} (hm : m < 16) (hn : n < 16)
    (h : escapeDigit m = escapeDigit n) : m = n := by
  have hall : ∀ m < 16, ∀ n < 16, escapeDigit m = escapeDigit n → m = n := by decide
  exact hall m hm n hn h

theorem escapeDigit_ne_slash {n : Nat} (hn : n < 16) : escapeDigit n ≠ '/' := by
  have hall : ∀ n < 16, escapeDigit n ≠ '/' := by decide
  exact hall n hn

/-- What is written for a byte. -/
theorem encodeByte_cases (b : UInt8) :
    (∃ c : Char, encodeByte b = [c] ∧ c.toNat = b.toNat ∧ c ≠ '%' ∧ c ≠ '/') ∨
      ∃ high low, encodeByte b = ['%', escapeDigit high, escapeDigit low] ∧
        high < 16 ∧ low < 16 ∧ b.toNat = 16 * high + low := by
  have hb : b.toNat < 256 := b.toNat_lt
  rw [encodeByte]
  split
  · next hplain =>
      simp only [isPlain, Bool.and_eq_true, Bool.not_eq_true', List.contains_eq_mem,
        decide_eq_false_iff_not] at hplain
      refine .inl ⟨_, rfl, toNat_ofNat_byte b, ?_, ?_⟩
      · intro heq
        exact hplain.2 (by rw [heq]; decide)
      · intro heq
        exact hplain.2 (by rw [heq]; decide)
  · exact .inr ⟨b.toNat / 16, b.toNat % 16, rfl, by omega, by omega, by omega⟩

/-- **What is written for a byte can be read off**, whatever follows it. -/
theorem encodeByte_append_inj (h : encodeByte a ++ as = encodeByte b ++ bs) : a = b ∧ as = bs := by
  rcases encodeByte_cases a with ⟨c, ha, hac, hc, -⟩ | ⟨ha₁, ha₂, ha, hlt₁, hlt₂, hsum⟩ <;>
    rcases encodeByte_cases b with ⟨d, hb, hbd, hd, -⟩ | ⟨hb₁, hb₂, hb, hlt₃, hlt₄, hsum'⟩
  · rw [ha, hb] at h
    obtain ⟨rfl, rfl⟩ := List.cons.inj h
    exact ⟨UInt8.toNat_inj.mp (hac.symm.trans hbd), rfl⟩
  · rw [ha, hb] at h
    exact absurd (List.cons.inj h).1 hc
  · rw [ha, hb] at h
    exact absurd (List.cons.inj h).1.symm hd
  · rw [ha, hb] at h
    simp only [List.cons_append, List.nil_append, List.cons.injEq, true_and] at h
    obtain ⟨hhigh, hlow, rfl⟩ := h
    obtain rfl := escapeDigit_inj hlt₁ hlt₃ hhigh
    obtain rfl := escapeDigit_inj hlt₂ hlt₄ hlow
    exact ⟨UInt8.toNat_inj.mp (hsum.trans hsum'.symm), rfl⟩

theorem encodeByte_ne_nil (b : UInt8) : encodeByte b ≠ [] := by
  rcases encodeByte_cases b with ⟨c, hb, -⟩ | ⟨high, low, hb, -⟩ <;> simp [hb]

theorem slash_notMem_encodeByte (b : UInt8) : '/' ∉ encodeByte b := by
  rcases encodeByte_cases b with ⟨c, hb, -, -, hc⟩ | ⟨high, low, hb, hhigh, hlow, -⟩
  · simpa [hb] using Ne.symm hc
  · have h₁ := Ne.symm (escapeDigit_ne_slash hhigh)
    have h₂ := Ne.symm (escapeDigit_ne_slash hlow)
    simp [hb, h₁, h₂]

/-! ### Names -/

theorem flatMap_encodeByte_inj {xs ys : List UInt8}
    (h : xs.flatMap encodeByte = ys.flatMap encodeByte) : xs = ys := by
  induction xs generalizing ys with
  | nil =>
      rcases ys with - | ⟨y, ys⟩
      · rfl
      · exact absurd h.symm (by simp [encodeByte_ne_nil])
  | cons x xs ih =>
      rcases ys with - | ⟨y, ys⟩
      · exact absurd h (by simp [encodeByte_ne_nil])
      · rw [List.flatMap_cons, List.flatMap_cons] at h
        obtain ⟨rfl, hmore⟩ := encodeByte_append_inj h
        rw [ih hmore]

theorem encodeName_inj {s t : String} (h : encodeName s = encodeName t) : s = t := by
  rw [encodeName, encodeName, toList_toUTF8_eq, toList_toUTF8_eq] at h
  exact utf8_inj (flatMap_encodeByte_inj h)

theorem slash_notMem_encodeName (s : String) : '/' ∉ encodeName s := by
  intro h
  obtain ⟨b, -, hb⟩ := List.mem_flatMap.mp h
  exact slash_notMem_encodeByte b hb

/-- The slashes of a list of names are those before the names. -/
theorem flatMap_encodeName_inj {xs ys : List String}
    (h : (xs.flatMap fun name => '/' :: encodeName name)
      = ys.flatMap fun name => '/' :: encodeName name) : xs = ys := by
  -- up to the next slash stands the first name
  have hfirst : ∀ (x : String) (xs : List String),
      (encodeName x ++ xs.flatMap fun name => '/' :: encodeName name).takeWhile (· != '/')
        = encodeName x := by
    intro x xs
    have hplain : ∀ c ∈ encodeName x, (c != '/') = true := by
      intro c hc
      rw [bne_iff_ne]
      rintro rfl
      exact slash_notMem_encodeName x hc
    rw [List.takeWhile_append_of_pos hplain]
    rcases xs with - | ⟨y, xs⟩ <;> simp
  induction xs generalizing ys with
  | nil =>
      rcases ys with - | ⟨y, ys⟩
      · rfl
      · exact absurd h.symm (by simp)
  | cons x xs ih =>
      rcases ys with - | ⟨y, ys⟩
      · exact absurd h (by simp)
      · rw [List.flatMap_cons, List.flatMap_cons, List.cons_append, List.cons_append] at h
        have hrest := (List.cons.inj h).2
        have hname := congrArg (List.takeWhile (· != '/')) hrest
        rw [hfirst, hfirst] at hname
        obtain rfl := encodeName_inj hname
        rw [ih (List.append_cancel_left hrest)]

/-! ### Paths -/

theorem map_text_inj {xs ys : List Part} (hx : ∀ x ∈ xs, Path.Inner x)
    (hy : ∀ y ∈ ys, Path.Inner y) (h : xs.map Part.text = ys.map Part.text) : xs = ys := by
  rw [← Path.filterMap_text hx, ← Path.filterMap_text hy, h]

theorem text_ne_empty {x : Part} (h : Path.Inner x) : x.text ≠ "" := by
  intro hempty
  have hidle := h.not_idle
  rw [hempty] at hidle
  cases hidle

/-- The names of a URI; the root is written as if it had an empty one. -/
theorem ofPath_eq {rest : List Part} (h : p.parts = .root :: rest) :
    ofPath p = String.ofList ("file://".toList ++
      (if rest.isEmpty then [""] else rest.map Part.text).flatMap fun name =>
        '/' :: encodeName name) := by
  have hempty : encodeName "" = [] := by
    rw [encodeName, toList_toUTF8_eq, utf8_eq]
    rfl
  unfold ofPath
  rw [h]
  rcases rest with - | ⟨x, rest⟩
  · simp [hempty]
  · simp

/-- **Two absolute paths have one URI exactly if they are the same path.** -/
theorem ofPath_eq_iff (hp : p.isAbsolute = true) (hq : q.isAbsolute = true) :
    ofPath p = ofPath q ↔ p.same q = true := by
  rw [Path.same_iff]
  refine ⟨fun h => ?_, fun h => by unfold ofPath; rw [h]⟩
  obtain ⟨xs, hxs, hxinner⟩ := Path.inner_of_isAbsolute hp
  obtain ⟨ys, hys, hyinner⟩ := Path.inner_of_isAbsolute hq
  rw [ofPath_eq hxs, ofPath_eq hys, String.ofList_inj] at h
  have hnames := flatMap_encodeName_inj (List.append_cancel_left h)
  rw [hxs, hys]
  rcases xs with - | ⟨x, xs⟩ <;> rcases ys with - | ⟨y, ys⟩
  · rfl
  · exact absurd (List.cons.inj hnames).1.symm (text_ne_empty (hyinner y List.mem_cons_self))
  · exact absurd (List.cons.inj hnames).1 (text_ne_empty (hxinner x List.mem_cons_self))
  · rw [map_text_inj hxinner hyinner hnames]

end Uri

end LatexIndex
