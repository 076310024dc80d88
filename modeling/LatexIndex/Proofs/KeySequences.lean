/-
LatexIndex/Proofs/KeySequences.lean

What is found in a text, without its places.

The keys, names and markers of a scan, each kind in its order and without lines
and columns, are its *sequences*.  They can be put one after another: the
sequences of some lines are those of the first of them and then those of the
others, read in the mode that the first leads to (`sequencesOf_foundFrom_cons`).

Some of what is found is in none of the sequences: modelines
(`sequencesOn_lineFindings`), and what a directive contributes whose argument is
not closed (`directiveFindings_filter`).
-/
import LatexIndex.Proofs.Concatenation

namespace LatexIndex.Markup

open Text

variable {d : Directive} {mode : Mode}

/-! ### Sequences -/

/-- What is found in a text, each kind in the order it is found in. -/
structure KeySequences where
  inclusions : List (IncludeKind × String)
  labels : List String
  citations : List String
  references : List String
  bibitems : List String
  bibliographies : List String
  /-- Names of environments, with `true` where they begin. -/
  markers : List (String × Bool)
  declaresRoot : Bool
  deriving DecidableEq, Repr

namespace KeySequences

/-- Nothing found. -/
def empty : KeySequences :=
  ⟨[], [], [], [], [], [], [], false⟩

/-- What is found in one text and then in another. -/
def append (a b : KeySequences) : KeySequences where
  inclusions := a.inclusions ++ b.inclusions
  labels := a.labels ++ b.labels
  citations := a.citations ++ b.citations
  references := a.references ++ b.references
  bibitems := a.bibitems ++ b.bibitems
  bibliographies := a.bibliographies ++ b.bibliographies
  markers := a.markers ++ b.markers
  declaresRoot := a.declaresRoot || b.declaresRoot

instance : Append KeySequences := ⟨append⟩

theorem empty_append (a : KeySequences) : empty ++ a = a := rfl

theorem append_empty (a : KeySequences) : a ++ empty = a := by
  show append a empty = a
  simp [append, empty]

theorem append_assoc (a b c : KeySequences) : a ++ b ++ c = a ++ (b ++ c) := by
  show append (append a b) c = append a (append b c)
  simp [append, Bool.or_assoc]

end KeySequences

/-- The keys, names and markers of a scan, without their places. -/
def Scan.sequences (s : Scan) : KeySequences where
  inclusions := s.inclusions.map fun i => (i.kind, i.target)
  labels := s.labels.map (·.key)
  citations := s.citations.map (·.key)
  references := s.references.map (·.key)
  bibitems := s.bibitems.map (·.key)
  bibliographies := s.bibliographies.map (·.key)
  markers := s.markers.map fun m => (m.name, m.isOpen)
  declaresRoot := s.declaresRoot

/-- The same of a list of findings. -/
def sequencesOf (found : List Found) : KeySequences :=
  Scan.sequences ⟨found, 0⟩

/-- The same of the findings of a line. -/
def sequencesOn (findings : List Finding) : KeySequences :=
  sequencesOf (findings.map (⟨0, ·⟩))

theorem sequences_scan (text : String) :
    (scan text).sequences = sequencesOf (foundFrom .markup 0 (sourceLines text.toList)) :=
  rfl

theorem sequencesOf_append (as bs : List Found) :
    sequencesOf (as ++ bs) = sequencesOf as ++ sequencesOf bs := by
  show _ = KeySequences.append _ _
  simp only [sequencesOf, Scan.sequences, KeySequences.append, Scan.inclusions, Scan.labels,
    Scan.citations, Scan.references, Scan.bibitems, Scan.bibliographies, Scan.occurrences,
    Scan.markers, Scan.declaresRoot, List.filterMap_append, List.map_append, List.any_append]

theorem sequencesOn_append (as bs : List Finding) :
    sequencesOn (as ++ bs) = sequencesOn as ++ sequencesOn bs := by
  rw [sequencesOn, List.map_append, sequencesOf_append]
  rfl

/-- A view by its keys does not depend on lines. -/
theorem map_filterMap_down {α β : Type} {view : Found → Option α} {down : Nat → α → α}
    {key : α → β} (h : ∀ n f, view (f.down n) = (view f).map (down n))
    (hkey : ∀ n a, key (down n a) = key a) (n : Nat) (found : List Found) :
    ((found.map (Found.down n)).filterMap view).map key = (found.filterMap view).map key := by
  rw [List.filterMap_map, List.map_filterMap, List.map_filterMap]
  refine List.filterMap_congr fun f _ => ?_
  show (view (f.down n)).map key = (view f).map key
  rw [h, Option.map_map]
  exact congrArg (Option.map · (view f)) (funext fun a => hkey n a)

theorem sequencesOf_down (n : Nat) (found : List Found) :
    sequencesOf (found.map (Found.down n)) = sequencesOf found := by
  have hkeys : ∀ pick : Finding → Option String,
      ((found.map (Found.down n)).filterMap (Found.occurrence? pick)).map Occurrence.key
        = (found.filterMap (Found.occurrence? pick)).map Occurrence.key :=
    fun pick => map_filterMap_down (Found.occurrence?_down pick) (fun _ _ => rfl) n found
  simp only [sequencesOf, Scan.sequences, KeySequences.mk.injEq]
  refine ⟨map_filterMap_down Found.inclusion?_down (fun _ _ => rfl) n found, hkeys _, hkeys _,
    hkeys _, hkeys _, hkeys _, map_filterMap_down Found.marker?_down (fun _ _ => rfl) n found, ?_⟩
  show (found.map (Found.down n)).any _ = found.any _
  rw [List.any_map]
  rfl

theorem sequencesOf_foundFrom_cons (mode : Mode) (n : Nat) (line : List Char)
    (more : List (List Char)) :
    sequencesOf (foundFrom mode n (line :: more))
      = sequencesOn (lineFindings mode line).1 ++
        sequencesOf (foundFrom (lineFindings mode line).2 0 more) := by
  have hline : (lineFindings mode line).1.map (Found.mk n)
      = ((lineFindings mode line).1.map (Found.mk 0)).map (Found.down n) := by
    rw [List.map_map]
    rfl
  have hmore := foundFrom_down (lineFindings mode line).2 (n + 1) 0 more
  rw [Nat.add_zero] at hmore
  rw [foundFrom_cons, sequencesOf_append, hline, hmore, sequencesOf_down, sequencesOf_down]
  rfl

theorem sequencesOf_foundFrom_append (as bs : List (List Char)) :
    sequencesOf (foundFrom mode 0 (as ++ bs))
      = sequencesOf (foundFrom mode 0 as) ++
        sequencesOf (foundFrom (modeAfter mode as) 0 bs) := by
  have hbs := foundFrom_down (modeAfter mode as) as.length 0 bs
  rw [Nat.add_zero] at hbs
  rw [foundFrom_append, sequencesOf_append, Nat.zero_add, hbs, sequencesOf_down]

/-- Modelines are among none of the keys. -/
theorem sequencesOn_lineFindings (mode : Mode) (line : List Char) :
    sequencesOn (lineFindings mode line).1 = sequencesOn (bodyFindings line mode).1 := by
  rw [lineFindings]
  dsimp only
  rw [sequencesOn_append]
  rcases modeline? line with - | target <;> rfl

/-! ### Directives that are not closed -/

theorem Directive.sequencesOn_of_not_terminated (h : d.isTerminated = false) (line : List Char) :
    sequencesOn (d.findings line) = .empty ∧ d.opensVerbatim? = none := by
  unfold Directive.findings Directive.opensVerbatim?
  rcases harg : d.argument with - | start | ⟨start, argument⟩
  · exact ⟨rfl, rfl⟩
  · exact ⟨rfl, rfl⟩
  · simp [isTerminated, harg, Argument.stop?] at h

/-- **Directives that are not closed** contribute nothing that is kept. -/
theorem directiveFindings_filter (line : List Char) (ds : List Directive) :
    sequencesOn (directiveFindings line (ds.filter Directive.isTerminated)).1
        = sequencesOn (directiveFindings line ds).1 ∧
      (directiveFindings line (ds.filter Directive.isTerminated)).2
        = (directiveFindings line ds).2 := by
  induction ds with
  | nil => exact ⟨rfl, rfl⟩
  | cons d more ih =>
      by_cases hd : d.isTerminated = true
      · rw [List.filter_cons_of_pos hd, directiveFindings, directiveFindings]
        split
        · exact ⟨rfl, rfl⟩
        · dsimp only
          rw [sequencesOn_append, sequencesOn_append, ih.1]
          exact ⟨rfl, ih.2⟩
      · obtain ⟨hnone, hopens⟩ :=
          Directive.sequencesOn_of_not_terminated (Bool.eq_false_iff.mpr hd) line
        rw [List.filter_cons_of_neg hd, directiveFindings, hopens]
        dsimp only
        rw [sequencesOn_append, hnone, KeySequences.empty_append]
        exact ih

end LatexIndex.Markup
