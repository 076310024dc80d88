/-
LatexIndex/Proofs/FileNames.lean

How the names of files end.

A name that a document mentions is looked for with an extension, `.tex` for
inclusions and `.bib` for bibliographies.  Joining it to a directory and
normalising the path keep the last segment, so the file that is found has a
name with that ending (`hasEnding_of_mem_candidates`).  So of all documents
only the master may be named in another way, and no other document is a
bibliography.
-/
import LatexIndex.Proofs.Discovery

namespace LatexIndex

open Text

/-- What is put behind a text without a separator goes to its last piece. -/
theorem Text.splitOn_append {sep : Char} {more : List Char} (h : sep ∉ more) (text : List Char) :
    ∃ init last, text.splitOn sep = init ++ [last] ∧
      (text ++ more).splitOn sep = init ++ [last ++ more] := by
  induction text with
  | nil => exact ⟨[], [], rfl, List.splitOn_eq_singleton h⟩
  | cons c text ih =>
      obtain ⟨init, last, htext, happend⟩ := ih
      rw [List.cons_append, List.splitOn_cons_eq_if_modifyHead, List.splitOn_cons_eq_if_modifyHead,
        htext, happend]
      split
      · exact ⟨[] :: init, last, rfl, rfl⟩
      · rcases init with - | ⟨first, init⟩
        · exact ⟨[], c :: last, rfl, rfl⟩
        · exact ⟨(c :: first) :: init, last, rfl, rfl⟩

/-- A last piece keeps what the text ends with, if no separator is in it. -/
theorem Text.splitOn_append_ending {sep : Char} {ending : List Char} (h : sep ∉ ending)
    (text : List Char) :
    ∃ init last, (text ++ ending).splitOn sep = init ++ [last] ∧ ending <:+ last := by
  obtain ⟨init, last, -, happend⟩ := splitOn_append h text
  exact ⟨init, last ++ ending, happend, List.suffix_append _ _⟩

namespace Path

variable {p q c : Path} {ending : String}

/-- The name of the file ends so. -/
def HasEnding (p : Path) (ending : String) : Prop :=
  ∃ name, p.fileName? = some name ∧ ending.toList <:+ name.toList

/-- What the last segment of a path may end with and still be a name. -/
structure IsEnding (ending : String) : Prop where
  slash : '/' ∉ ending.toList
  last : ∃ c, ending.toList.getLast? = some c ∧ c ≠ '.'

theorem isEnding_tex : IsEnding ".tex" :=
  ⟨by decide, 'x', by decide, by decide⟩

theorem isEnding_bib : IsEnding ".bib" :=
  ⟨by decide, 'b', by decide, by decide⟩

theorem fileName?_congr (h : p.parts = q.parts) : p.fileName? = q.fileName? := by
  rw [fileName?, fileName?, h]

theorem HasEnding.congr (h : p.parts = q.parts) (hp : p.HasEnding ending) : q.HasEnding ending := by
  obtain ⟨name, hname, hending⟩ := hp
  exact ⟨name, (fileName?_congr h).symm.trans hname, hending⟩

/-- A segment that ends so is a name. -/
theorem IsEnding.partOf? (h : IsEnding ending) {s : String} (hs : ending.toList <:+ s.toList) :
    Path.partOf? s = some (.name s) := by
  obtain ⟨c, hlast, hc⟩ := h.last
  have hne : ending.toList ≠ [] := by
    intro hnil
    rw [hnil] at hlast
    cases hlast
  have hs' : s.toList.getLast? = some c := by
    obtain ⟨before, hbefore⟩ := hs
    rw [← hbefore, List.getLast?_append_of_ne_nil before hne, hlast]
  -- the empty segment, `.` and `..` have another last character
  have hempty : s ≠ "" := by
    rintro rfl
    cases hs'
  have hdot : s ≠ "." := by
    rintro rfl
    exact hc (Option.some.inj hs').symm
  have hup : s ≠ ".." := by
    rintro rfl
    exact hc (Option.some.inj hs').symm
  simp [Path.partOf?, isIdle, hempty, hdot, hup]

/-- A path whose text ends so has a last part that does. -/
theorem exists_parts_of_ending (h : IsEnding ending) (hp : ending.toList <:+ p.text.toList) :
    ∃ init name, p.parts = init ++ [.name name] ∧ ending.toList <:+ name.toList := by
  obtain ⟨before, hbefore⟩ := hp
  obtain ⟨init, last, hpieces, hlast⟩ := splitOn_append_ending h.slash before
  have hsegments : p.segments = init.map String.ofList ++ [String.ofList last] := by
    rw [segments, ← hbefore, hpieces, List.map_append]
    rfl
  have hname : ending.toList <:+ (String.ofList last).toList := by
    rwa [String.toList_ofList]
  refine ⟨leadOf p.segments ++ (init.map String.ofList).filterMap Path.partOf?,
    String.ofList last, ?_, hname⟩
  rw [parts_eq_partsOf, partsOf, List.append_assoc]
  congr 1
  rw [hsegments, List.filterMap_append, List.filterMap_cons_some (h.partOf? hname)]
  rfl

/-- Normalising keeps a name at the end. -/
theorem normalParts_concat (parts : List Part) (name : String) :
    normalParts (parts ++ [.name name]) = normalParts parts ++ [.name name] := by
  rw [normalParts, List.foldl_append]
  exact List.reverse_cons

theorem join_ending (p : Path) {name : String} (h : ending.toList <:+ name.toList) :
    ending.toList <:+ (p.join name).text.toList := by
  unfold join
  split
  · exact h
  · split
    · rw [String.toList_append]
      exact h.trans (List.suffix_append _ _)
    · rw [String.toList_append]
      exact h.trans (List.suffix_append _ _)

/-- **What a name stands for has the ending of its kind.** -/
theorem hasEnding_of_mem_candidates (h : IsEnding ending) {name : String} {bases : List Path}
    (hc : c ∈ candidates name bases ending) : c.HasEnding ending := by
  obtain ⟨base, -, rfl⟩ := List.mem_map.mp hc
  have hending : ending.toList <:+
      (if ending.toList.isSuffixOf name.toList then name else name ++ ending).toList := by
    split
    · next hsuffix => exact List.isSuffixOf_iff_suffix.mp hsuffix
    · rw [String.toList_append]
      exact List.suffix_append _ _
  obtain ⟨init, last, hparts, hlast⟩ := exists_parts_of_ending h (join_ending base hending)
  refine ⟨last, ?_, hlast⟩
  rw [fileName?, parts_normalize, hparts, normalParts_concat, List.getLast?_concat]

/-- A file is not both a document and a bibliography by its name. -/
theorem HasEnding.not_bib (h : p.HasEnding ".tex") : ¬ p.HasEnding ".bib" := by
  rintro ⟨name, hname, hbib⟩
  obtain ⟨other, hother, htex⟩ := h
  obtain rfl := Option.some.inj (hname.symm.trans hother)
  have heq : ".bib".toList = ".tex".toList :=
    (List.suffix_of_suffix_length_le hbib htex (by decide)).eq_of_length (by decide)
  exact absurd heq (by decide)

end Path

variable {sources : Sources} {master p : Path} {g : Graph} {d : Document}

/-- All paths of a project but the master have the names of documents. -/
theorem Sources.Included.eq_or_ending (h : sources.Included master p) :
    p = master ∨ p.HasEnding ".tex" := by
  cases h with
  | master => exact .inl rfl
  | inclusion _ _ _ hr _ =>
      exact .inr (Path.hasEnding_of_mem_candidates Path.isEnding_tex
        (List.mem_of_find?_eq_some hr))

/-- No document has the name of a bibliography, if the master has not. -/
theorem Graph.not_bib_of_mem_documents (hg : sources.graph master = .ok g)
    (hm : ¬ master.HasEnding ".bib") (hd : d ∈ g.documents) : ¬ d.path.HasEnding ".bib" := by
  rcases ((sound_of_graph hg).2.included d hd).eq_or_ending with heq | hending
  · rwa [heq]
  · exact hending.not_bib

end LatexIndex
