/-
LatexIndex/Proofs/WrittenKeys.lean

Keys are written on the lines they are found on.

The argument of a directive is a part of its line (`infix_of_mem_directives`),
and a key is a part of an argument between blanks and commas
(`written_of_mem_splitKeys`).  So each key that a scan finds stands on the line
it is found on, with nothing blank at either end (`written_of_mem_keys`).
-/
import LatexIndex.Proofs.Directives
import LatexIndex.Proofs.PathParts
import LatexIndex.Proofs.UnreadText

namespace LatexIndex

open Text

/-! ### Parts of a text -/

namespace Text

variable {text : List Char}

/-- A text with something in it and nothing blank at either end. -/
structure Solid (text : List Char) : Prop where
  ne_nil : text ≠ []
  first : isBlank (text.head ne_nil) = false
  last : isBlank (text.getLast ne_nil) = false

theorem trimEnd_begins (text : List Char) : trimEnd text <+: text :=
  List.rdropWhile_prefix isBlank text

theorem trim_infix (text : List Char) : trim text <:+: text :=
  (trimEnd_begins (trimStart text)).isInfix.trans (List.dropWhile_suffix isBlank).isInfix

theorem solid_trim (h : trim text ≠ []) : Solid (trim text) := by
  have hstart : trimStart text ≠ [] := by
    intro hnil
    exact h (by rw [trim, hnil]; rfl)
  refine ⟨h, ?_, ?_⟩
  · calc isBlank ((trim text).head h)
        = isBlank ((trimStart text).head hstart) :=
          congrArg isBlank ((trimEnd_begins (trimStart text)).head h)
      _ = false := List.head_dropWhile_not isBlank hstart
  · exact Bool.not_eq_true _ ▸ List.rdropWhile_last_not isBlank (trimStart text) h

theorem infix_of_mem_intercalate {piece sep : List Char} {ps : List (List Char)} (h : piece ∈ ps) :
    piece <:+: sep.intercalate ps := by
  induction ps with
  | nil => cases h
  | cons p ps ih =>
      rcases ps with - | ⟨q, ps⟩
      · obtain rfl := List.mem_singleton.mp h
        simp
      · rw [List.intercalate_cons_cons, List.append_assoc]
        rcases List.mem_cons.mp h with rfl | h
        · exact (List.prefix_append piece _).isInfix
        · exact (ih h).trans ((List.suffix_append sep _).trans (List.suffix_append p _)).isInfix

theorem infix_of_mem_splitOn {sep : Char} {piece : List Char} (h : piece ∈ text.splitOn sep) :
    piece <:+: text := by
  have htext : [sep].intercalate (text.splitOn sep) = text := List.intercalate_splitOn sep
  exact htext ▸ infix_of_mem_intercalate h

end Text

namespace Markup

variable {line text argument : List Char} {key : String} {start : Nat} {d : Directive}
  {mode : Mode} {finding : Finding}

/-! ### Arguments -/

/-- The argument of a directive is a part of its line. -/
theorem infix_of_mem_directives (h : d ∈ directives text)
    (hd : d.argument = .closed start argument) : argument <:+: text := by
  obtain ⟨front, written, rest, rfl, -⟩ := exists_of_mem_directives h hd
  exact ⟨front ++ '\\' :: written, '}' :: rest, by simp⟩

/-! ### Keys -/

/-- The key, or the name of a file, that a finding is about. -/
def Finding.key? : Finding → Option String
  | .inclusion _ target => some target
  | .label key => some key
  | .bibitem key => some key
  | .bibliography name => some name
  | .reference key => some key
  | .citation key => some key
  | _ => none

/-- A key is written in a text: it is a part of it, with nothing blank at either
end. -/
structure Written (key : String) (text : List Char) : Prop where
  part : key.toList <:+: text
  solid : Solid key.toList

theorem Written.mono {text' : List Char} (h : Written key text) (hpart : text <:+: text') :
    Written key text' :=
  ⟨h.part.trans hpart, h.solid⟩

theorem written_trim (h : String.ofList (trim text) ≠ "") :
    Written (String.ofList (trim text)) text := by
  have hne : trim text ≠ [] := by
    intro hnil
    exact h (by rw [hnil])
  refine ⟨?_, ?_⟩ <;> rw [String.toList_ofList]
  · exact trim_infix text
  · exact solid_trim hne

theorem written_of_mem_splitKeys (h : key ∈ splitKeys argument) : Written key argument := by
  obtain ⟨hmem, hne⟩ := List.mem_filter.mp h
  obtain ⟨part, hpart, rfl⟩ := List.mem_map.mp hmem
  exact (written_trim (of_decide_eq_true hne)).mono (infix_of_mem_splitOn hpart)

theorem Role.written_of_mem_findings {role : Role} {column : Nat}
    (h : finding ∈ role.findings column argument) (hkey : finding.key? = some key) :
    Written key argument := by
  cases role with
  | inclusion kind =>
      simp only [findings] at h
      split at h
      · cases h
      · next hne =>
          obtain rfl := List.mem_singleton.mp h
          obtain rfl := Option.some.inj hkey
          exact written_trim hne
  | label | bibitem =>
      obtain ⟨key', hmem, rfl⟩ := List.mem_map.mp h
      obtain rfl := Option.some.inj hkey
      exact written_of_mem_splitKeys (List.mem_of_mem_take hmem)
  | bibliography | reference | citation =>
      obtain ⟨key', hmem, rfl⟩ := List.mem_map.mp h
      obtain rfl := Option.some.inj hkey
      exact written_of_mem_splitKeys hmem
  | documentClass | opening | closing =>
      obtain rfl := List.mem_singleton.mp h
      cases hkey

theorem Directive.written_of_mem_findings (h : finding ∈ d.findings line)
    (hkey : finding.key? = some key) (hd : d ∈ directives text) : Written key text := by
  rw [findings] at h
  split at h
  · cases h
  · obtain rfl := List.mem_singleton.mp h
    cases hkey
  · next argument harg =>
      split at h
      · exact (Role.written_of_mem_findings h hkey).mono (infix_of_mem_directives hd harg)
      · cases h

/-- What a run of directives contributes comes from one of them, but for the end
of a verbatim-like environment, which is about no key. -/
theorem exists_directive_of_mem {ds : List Directive} (h : finding ∈ (directiveFindings line ds).1)
    (hkey : finding.key? = some key) : ∃ d ∈ ds, finding ∈ d.findings line := by
  induction ds with
  | nil => cases h
  | cons d more ih =>
      rw [directiveFindings] at h
      have hd : finding ∈ d.findings line ∨ finding ∈ (directiveFindings line more).1 := by
        split at h
        · split at h
          · rcases List.mem_append.mp h with h | h
            · exact .inl h
            · obtain rfl := List.mem_singleton.mp h
              cases hkey
          · exact .inl h
        · exact List.mem_append.mp h
      rcases hd with hd | hd
      · exact ⟨d, List.mem_cons_self, hd⟩
      · obtain ⟨d', hd', hmem⟩ := ih hd
        exact ⟨d', List.mem_cons_of_mem d hd', hmem⟩

theorem written_of_mem_lineFindings (h : finding ∈ (lineFindings mode line).1)
    (hkey : finding.key? = some key) : Written key line := by
  have hbody : finding ∈ (bodyFindings line mode).1 := by
    rcases List.mem_append.mp h with h | h
    · obtain ⟨target, -, rfl⟩ := List.mem_map.mp h
      cases hkey
    · exact h
  cases mode with
  | markup =>
      obtain ⟨d, hd, hmem⟩ := exists_directive_of_mem hbody hkey
      exact (Directive.written_of_mem_findings hmem hkey hd).mono (stripComment_begins line).isInfix
  | verbatim environment =>
      rw [bodyFindings] at hbody
      split at hbody
      · obtain rfl := List.mem_singleton.mp hbody
        cases hkey
      · cases hbody

theorem exists_line_of_mem_foundFrom {f : Found} {n : Nat} {lines : List (List Char)}
    (h : f ∈ foundFrom mode n lines) :
    ∃ k line mode', f.line = n + k ∧ lines[k]? = some line ∧
      f.finding ∈ (lineFindings mode' line).1 := by
  induction lines generalizing mode n with
  | nil => cases h
  | cons line more ih =>
      rcases List.mem_append.mp h with h | h
      · obtain ⟨finding, hmem, rfl⟩ := List.mem_map.mp h
        exact ⟨0, line, mode, rfl, rfl, hmem⟩
      · obtain ⟨k, line', mode', hline, hk, hmem⟩ := ih h
        exact ⟨k + 1, line', mode', by omega, by simpa using hk, hmem⟩

/-- The labels, citations, references, bibliography items, bibliographies and
inclusions of a scan, each with its line. -/
def Scan.keys (s : Scan) : List Occurrence :=
  s.labels ++ s.citations ++ s.references ++ s.bibitems ++ s.bibliographies ++
    s.inclusions.map fun i => ⟨i.target, i.line⟩

theorem Scan.exists_found_of_mem_occurrences {s : Scan} {o : Occurrence}
    {pick : Finding → Option String} (h : o ∈ s.occurrences pick)
    (hpick : ∀ finding key, pick finding = some key → finding.key? = some key) :
    ∃ f ∈ s.found, f.line = o.line ∧ f.finding.key? = some o.key := by
  obtain ⟨f, hf, ho⟩ := List.mem_filterMap.mp h
  obtain ⟨key, hkey, rfl⟩ := Option.map_eq_some_iff.mp ho
  exact ⟨f, hf, rfl, hpick f.finding key hkey⟩

theorem Scan.exists_found_of_mem_keys {s : Scan} {o : Occurrence} (h : o ∈ s.keys) :
    ∃ f ∈ s.found, f.line = o.line ∧ f.finding.key? = some o.key := by
  simp only [keys, List.mem_append, List.mem_map] at h
  rcases h with ((((h | h) | h) | h) | h) | ⟨i, hi, rfl⟩
  on_goal 6 =>
    obtain ⟨⟨line, finding⟩, hf, heq⟩ := List.mem_filterMap.mp hi
    refine ⟨_, hf, ?_⟩
    cases finding <;> cases heq
    exact ⟨rfl, rfl⟩
  -- the other views pick one kind of finding each, by its key
  all_goals
    refine exists_found_of_mem_occurrences h fun finding key hkey => ?_
    cases finding <;> first | exact hkey | cases hkey

/-- **Keys are written where they are found**: the line of a key is a line of the
text, and the key is a part of it. -/
theorem written_of_mem_keys {text : String} {o : Occurrence} (h : o ∈ (scan text).keys) :
    ∃ line, (sourceLines text.toList)[o.line]? = some line ∧ Written o.key line := by
  obtain ⟨f, hf, hline, hkey⟩ := Scan.exists_found_of_mem_keys h
  obtain ⟨k, line, mode, hk, hl, hmem⟩ := exists_line_of_mem_foundFrom hf
  refine ⟨line, ?_, written_of_mem_lineFindings hmem hkey⟩
  rw [← hline, hk, Nat.zero_add]
  exact hl

end Markup

end LatexIndex
