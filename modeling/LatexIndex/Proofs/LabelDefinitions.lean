/-
LatexIndex/Proofs/LabelDefinitions.lean

Which definition of a label counts.

The definitions of a graph are added one after another, so the index is at
every moment about those that have been added so far: looking a key up in it
gives the first of them with that key (`Knows`).  A definition that is added
keeps this, whether its key is new or not, and which of the two it is depends
on the earlier definitions alone.  So each definition can be judged by itself,
together with those that stand before it (`extend_eq`).
-/
import LatexIndex.Project.Labels
import LatexIndex.Proofs.Catalog
import LatexIndex.Proofs.Listing

namespace LatexIndex.LabelIndex

open Listing

variable {index : LabelIndex} {before : List Label} {label first : Label} {key : String}

/-! ### Looking up -/

/-- Looking a key up by its position finds the first label with the key. -/
theorem lookup?_eq (index : LabelIndex) (key : String) :
    index.lookup? key = index.labels.find? (·.key = key) := by
  rw [lookup?, Catalog.find?_eq, labels]
  congr 1
  funext label
  rw [Bool.beq_eq_decide_eq, decide_eq_decide]
  exact eq_comm

/-- A key means in the index what it means first among `labels`. -/
def Knows (index : LabelIndex) (labels : List Label) : Prop :=
  ∀ key, index.lookup? key = labels.find? (·.key = key)

theorem knows_nil : (LabelIndex.mk .empty).Knows [] :=
  fun _ => rfl

/-- A further definition of a key does not change what any key means. -/
theorem Knows.skip (h : index.Knows before) (hknown : index.lookup? label.key = some first) :
    index.Knows (before ++ [label]) := by
  intro key
  rw [List.find?_append, ← h key]
  by_cases hkey : label.key = key
  · rw [← hkey, hknown, Option.some_or]
  · rw [List.find?_cons_of_neg (by simpa using hkey), List.find?_nil, Option.or_none]

/-- The definition of a new key is what that key means from now on. -/
theorem Knows.add (h : index.Knows before) :
    (LabelIndex.mk (index.catalog.push label)).Knows (before ++ [label]) := by
  intro key
  rw [lookup?_eq, labels, Catalog.items_push, List.find?_append, List.find?_append, ← h key,
    lookup?_eq, labels]

theorem key_mem_iff_find? (labels : List Label) :
    key ∈ labels.map Label.key ↔ (labels.find? (·.key = key)).isSome = true := by
  rw [List.find?_isSome, List.mem_map]
  exact exists_congr fun a => and_congr_right fun _ => decide_eq_true_iff.symm

/-- What can be looked up has been defined. -/
theorem Knows.key_mem_iff (h : index.Knows before) :
    key ∈ before.map Label.key ↔ (index.lookup? key).isSome = true := by
  rw [key_mem_iff_find?, h key]

/-! ### Adding definitions -/

/-- The warning about a definition that is given with those before it, if one of
them has its key: it names the first that has. -/
def repeatWarning? (x : List Label × Label) : Option Warning :=
  (x.1.find? (·.key = x.2.key)).map (duplicateWarning x.2)

/-- **What adding definitions comes to.**  Those with a new key are entered, and
the others are warned about, each judged by the definitions before it. -/
theorem extend_eq (h : index.Knows before) (more : List Label) :
    (index.extend more).1.labels = index.labels ++
        ((withEarlierFrom before more).filter fun x => x.2.key ∉ x.1.map Label.key).map Prod.snd ∧
      (index.extend more).2 = (withEarlierFrom before more).filterMap repeatWarning? ∧
      (index.extend more).1.Knows (before ++ more) := by
  induction more generalizing index before with
  | nil => exact ⟨(List.append_nil _).symm, rfl, by rwa [List.append_nil]⟩
  | cons label more ih =>
      have hmeans := h label.key
      rw [extend, withEarlierFrom]
      rcases hfound : index.lookup? label.key with - | first
      · have hnew : label.key ∉ before.map Label.key := by
          rw [h.key_mem_iff, hfound]
          exact Bool.false_ne_true
        obtain ⟨hlabels, hwarnings, hknows⟩ := ih h.add
        refine ⟨?_, ?_, ?_⟩
        · rw [List.filter_cons_of_pos (by simpa using hnew), List.map_cons]
          exact hlabels.trans (List.append_assoc _ _ _)
        · have hnone : repeatWarning? (before, label) = none := by
            rw [repeatWarning?, ← hmeans, hfound, Option.map_none]
          rw [List.filterMap_cons_none hnone]
          exact hwarnings
        · rwa [List.append_assoc] at hknows
      · have hold : label.key ∈ before.map Label.key := by
          rw [h.key_mem_iff, hfound]
          rfl
        obtain ⟨hlabels, hwarnings, hknows⟩ := ih (h.skip hfound)
        refine ⟨?_, ?_, ?_⟩
        · rw [List.filter_cons_of_neg (by simpa using hold)]
          exact hlabels
        · have hsome : repeatWarning? (before, label) = some (duplicateWarning label first) := by
            rw [repeatWarning?, ← hmeans, hfound, Option.map_some]
          rw [List.filterMap_cons_some hsome]
          exact congrArg _ hwarnings
        · rwa [List.append_assoc] at hknows

/-- Every definition is either entered or warned about. -/
theorem length_firsts_add (all : List Label) :
    (firsts Label.key all).length +
      ((withEarlier all).filterMap repeatWarning?).length = all.length := by
  have hrepeat : (fun x : List Label × Label => (repeatWarning? x).isSome) =
      fun x => decide ¬ decide (x.2.key ∉ x.1.map Label.key) = true := by
    funext x
    rw [repeatWarning?, Option.isSome_map, Bool.eq_iff_iff, List.find?_isSome]
    simp
  rw [firsts, List.length_map, ← List.countP_eq_length_filter, List.length_filterMap_eq_countP,
    hrepeat, ← List.length_eq_countP_add_countP]
  exact length_withEarlierFrom [] all

/-- **Of several definitions of a label the first counts.**  Let `all` be the
definitions of a graph, document by document and each from its top.  The index
lists the first definition of each key, in their order, so that it has each key
of a document once; a key is looked up as its first definition, and no other
key is found.  There is one warning for each later definition of a key, in
their order, at the place of that definition and naming the first. -/
theorem first_definition_counts (g : Graph) :
    let all : List Label :=
      g.documents.flatMap fun d => d.scan.labels.map fun o => ⟨o.key, ⟨d.path, o.line⟩⟩
    let index := (ofGraph g).1
    let warnings := (ofGraph g).2
    index.labels = firsts Label.key all ∧
    (index.labels.map Label.key).Nodup ∧
    (∀ key, key ∈ index.labels.map Label.key ↔
      ∃ d ∈ g.documents, ∃ o ∈ d.scan.labels, o.key = key) ∧
    (∀ key, index.lookup? key = all.find? (·.key = key)) ∧
    warnings = (withEarlier all).filterMap (fun x =>
      (x.1.find? (·.key = x.2.key)).map fun first =>
        ⟨.duplicateLabel, x.2.location.path, some x.2.location.line,
          s!"duplicate label `{x.2.key}`, first defined in " ++
            s!"{first.location.path.text}:{first.location.line + 1}"⟩) ∧
    index.labels.length + warnings.length = all.length := by
  intro all index warnings
  obtain ⟨hlabels, hwarnings, hknows⟩ := extend_eq knows_nil all
  have hfirsts : index.labels = firsts Label.key all := hlabels.trans (List.nil_append _)
  refine ⟨hfirsts, ?_, ?_, hknows, hwarnings, ?_⟩
  · rw [hfirsts]
    exact nodup_map_firsts Label.key all
  · intro key
    rw [key_mem_iff_find? index.labels, ← lookup?_eq index,
      show index.lookup? key = _ from hknows key, ← key_mem_iff_find?]
    simp only [List.nil_append, all, List.mem_map, List.mem_flatMap]
    constructor
    · rintro ⟨label, ⟨d, hd, o, ho, rfl⟩, rfl⟩
      exact ⟨d, hd, o, ho, rfl⟩
    · rintro ⟨d, hd, o, ho, rfl⟩
      exact ⟨_, ⟨d, hd, o, ho, rfl⟩, rfl⟩
  · rw [hfirsts, show warnings = _ from hwarnings]
    exact length_firsts_add all

end LatexIndex.LabelIndex
