/-
LatexIndex/Proofs/IncludedFiles.lean

Going to the file that an inclusion names.

The answer comes from one of two places.  If the graph has an edge for the name
out of the document, it is the target of that edge; otherwise the name is resolved
once more, this time on the disk alone.  The first is always what the inclusion
was resolved to when the graph was built: edges keep the names they were made
from, and a name stands for one file (`resolve?_of_edge`).  The second is as long
as that file is on the disk (`resolve?_disk_iff`).  So the two places disagree for
nothing but an inclusion that was refused as a cycle and leads to a buffer that
has no file.

An edge and a cycle never have the same ends: the edge would close the cycle
(`not_edge_of_cycle`).  Hence what became of an inclusion is known from any other
inclusion of the same document with that name.
-/
import LatexIndex.Definition
import LatexIndex.Proofs.Accounting
import LatexIndex.Proofs.Dependence
import LatexIndex.Proofs.Shadowing

namespace LatexIndex

open Markup Relation

/-! ### Names on the disk alone -/

namespace Sources

variable {sources : Sources} {name extension : String} {bases : List Path} {p : Path}

theorem has_disk (disk : Disk) (p : Path) : has ⟨disk, []⟩ p = disk.isFile p :=
  rfl

theorem has_of_isFile (h : sources.disk.isFile p = true) : sources.has p = true := by
  rw [has, h, Bool.or_true]

/-- A name stands for the same file without the buffers exactly if that file is
on the disk. -/
theorem resolve?_disk_iff (h : sources.resolve? name bases extension = some p) :
    Sources.resolve? ⟨sources.disk, []⟩ name bases extension = some p ↔
      sources.disk.isFile p = true := by
  obtain ⟨hhas, before, after, hsplit, hbefore⟩ := List.find?_eq_some_iff_append.mp h
  rw [resolve?, List.find?_eq_some_iff_append, has_disk]
  refine and_iff_left ⟨before, after, hsplit, fun q hq => ?_⟩
  -- what is nowhere to be read is not on the disk
  have hnone := hbefore q hq
  rw [Bool.not_eq_true', ← Bool.not_eq_true] at hnone ⊢
  exact fun hfile => hnone (has_of_isFile hfile)

end Sources

/-- Two normal paths with the same parts are written alike. -/
theorem Path.eq_of_normalize {p q p' q' : Path} (hp : p = p'.normalize) (hq : q = q'.normalize)
    (h : p.parts = q.parts) : p = q := by
  calc p = p.normalize := by rw [hp, normalize_normalize]
    _ = q.normalize := normalize_congr h
    _ = q := by rw [hq, normalize_normalize]

theorem exists_of_mem_forall₂ {α β : Type} {r : α → β → Prop} {as : List α} {bs : List β}
    (h : List.Forall₂ r as bs) {a : α} (ha : a ∈ as) : ∃ b ∈ bs, r a b := by
  induction h with
  | nil => cases ha
  | cons hab _ ih =>
      rcases List.mem_cons.mp ha with rfl | ha
      · exact ⟨_, List.mem_cons_self, hab⟩
      · obtain ⟨b, hb, hr⟩ := ih ha
        exact ⟨b, List.mem_cons_of_mem _ hb, hr⟩

/-! ### Edges and the names they were made from -/

namespace Graph

variable {sources : Sources} {settings : Settings} {master p : Path} {g : Graph} {d : Document}
  {i : Inclusion} {e : Edge} {name : String}

/-- A document other than the master is written in the normal way. -/
theorem exists_normalize_of_mem_documents (h : sources.graph master = .ok g)
    (hd : d ∈ g.documents) (hne : d.path ≠ master) : ∃ q : Path, d.path = q.normalize := by
  cases (sound_of_graph h).2.included d hd with
  | master => exact absurd rfl hne
  | inclusion _ _ _ hr _ => exact (Sources.resolve?_eq_some hr).2

/-- **An edge leads where its name leads.** -/
theorem resolve?_of_edge (h : sources.graph master = .ok g) (he : e ∈ g.edges) :
    sources.resolve? e.inclusion.target [master.directory, e.source.directory] ".tex"
      = some e.target := by
  have hrooted := rooted_of_graph h
  obtain ⟨-, -, -, -, file, hfile, hsame⟩ := traced_of_graph h e he
  obtain ⟨d, hd, htarget⟩ := (hrooted.ends e he).2
  obtain ⟨-, q, hq⟩ := Sources.resolve?_eq_some hfile
  obtain ⟨r, hr⟩ := exists_normalize_of_mem_documents h hd
    (htarget ▸ hrooted.no_edge_to_master he)
  rw [hfile, Path.eq_of_normalize hq (htarget ▸ hr) (Path.same_iff.mp hsame)]

/-- An edge out of a document is listed with its inclusions. -/
theorem mem_inclusionsOf_iff (h : Rooted master g) (hd : d ∈ g.documents) :
    e ∈ g.inclusionsOf d.path ↔ e ∈ g.edges ∧ e.source = d.path := by
  rw [(inclusionsOf_perm (h.document?_eq hd)).mem_iff, List.mem_filter, decide_eq_true_iff]

/-- An inclusion that was refused has no edge between the same documents. -/
theorem not_edge_of_cycle (h : Rooted master g) {c : CycleEdge} (hc : c ∈ g.cycles) (he : e ∈ g.edges)
    (hsource : e.source = c.source) : e.target.parts ≠ c.target.parts := by
  intro hparts
  obtain ⟨b, hb, hreach⟩ := h.closing c hc
  obtain ⟨hmem, hbparts⟩ := document?_eq_some hb
  obtain ⟨t, ht, htarget⟩ := (h.ends e he).2
  obtain rfl := h.eq_of_parts ht hmem (by rw [htarget, hparts, hbparts])
  refine h.acyclic c.source (.head' ⟨e, he, hsource, htarget.symm⟩ hreach)

/-- What became of an inclusion that was resolved is known from any other of the
same document with its name: if one of them was followed, so was it. -/
theorem edge_of_same_name (h : sources.graph master = .ok g) (hd : d ∈ g.documents)
    (hi : i ∈ d.scan.inclusions)
    (hp : sources.resolve? i.target [master.directory, d.path.directory] ".tex" = some p)
    (he : e ∈ g.edges) (hsource : e.source = d.path) (hname : e.inclusion.target = i.target) :
    ⟨d.path, p, i⟩ ∈ g.edges := by
  have hrooted := rooted_of_graph h
  have htarget : e.target = p := by
    have hedge := resolve?_of_edge h he
    rw [hname, hsource, hp] at hedge
    exact (Option.some.inj hedge).symm
  have htask : (d, i) ∈ g.inclusions :=
    List.mem_flatMap.mpr ⟨d, hd, List.mem_map_of_mem hi⟩
  obtain ⟨r, hr, haccounts⟩ := exists_of_mem_forall₂ (recorded_of_graph h) htask
  generalize haccount : r.account = account at haccounts
  cases haccounts with
  | @followed _ b _ target hresolve hb hsame =>
      have hedge : r.edge? = some ⟨d.path, b.path, i⟩ := congrArg Account.edge haccount
      have hmem : (⟨d.path, b.path, i⟩ : Edge) ∈ g.edges := List.mem_filterMap.mpr ⟨r, hr, hedge⟩
      have hbp := resolve?_of_edge h hmem
      simp only [hp, Option.some.injEq] at hbp
      rwa [hbp]
  | @refused _ b _ target hresolve hb hsame hreach =>
      have hcycle : r.cycle? = some ⟨d.path, target, i.line⟩ := congrArg Account.cycle haccount
      have hmem : (⟨d.path, target, i.line⟩ : CycleEdge) ∈ g.cycles :=
        List.mem_filterMap.mpr ⟨r, hr, hcycle⟩
      obtain rfl := Option.some.inj (hp.symm.trans hresolve)
      exact absurd (by rw [htarget]) (not_edge_of_cycle hrooted hmem he hsource)
  | missing hresolve =>
      rw [hp] at hresolve
      cases hresolve
  | unreadable hresolve hread =>
      -- the edge leads to a document, which could be read
      obtain rfl := Option.some.inj (hp.symm.trans hresolve)
      obtain ⟨b, hb, hpath⟩ := (hrooted.ends e he).2
      have hload := (sound_of_graph h).2.loaded b hb
      simp only [Sources.load, hpath, htarget, hread] at hload
      cases hload

end Graph

/-! ### Going to the file -/

namespace Snapshot

open LatexIndex.Graph

variable {sources : Sources} {settings : Settings} {master p : Path} {g : Graph} {d : Document}
  {i : Inclusion} {name : String}

theorem includedFile?_snapshot (h : sources.graph master = .ok g) (source : Path) (name : String) :
    (sources.snapshot settings master).includedFile? sources.disk source name =
      (((g.inclusionsOf source).find? (·.inclusion.target = name)).map (·.target)).or
        (Sources.resolve? ⟨sources.disk, []⟩ name [master.directory, source.directory] ".tex") := by
  rw [Sources.snapshot_eq_snapshotOf h]
  rfl

/-- With an edge for the name, the edge answers. -/
theorem includedFile?_of_edge (h : sources.graph master = .ok g) (hd : d ∈ g.documents)
    (hp : sources.resolve? name [master.directory, d.path.directory] ".tex" = some p)
    (he : ∃ e ∈ g.edges, e.source = d.path ∧ e.inclusion.target = name) :
    (sources.snapshot settings master).includedFile? sources.disk d.path name = some p := by
  have hrooted := rooted_of_graph h
  obtain ⟨e, he, hsource, hname⟩ := he
  have hsome : ((g.inclusionsOf d.path).find? (·.inclusion.target = name)).isSome = true :=
    List.find?_isSome.mpr
      ⟨e, (mem_inclusionsOf_iff hrooted hd).mpr ⟨he, hsource⟩, decide_eq_true hname⟩
  obtain ⟨found, hfound⟩ := Option.isSome_iff_exists.mp hsome
  obtain ⟨hmem, hfrom⟩ := (mem_inclusionsOf_iff hrooted hd).mp (List.mem_of_find?_eq_some hfound)
  have hfoundName := List.find?_some hfound
  have htarget := resolve?_of_edge h hmem
  rw [of_decide_eq_true hfoundName, hfrom, hp] at htarget
  rw [includedFile?_snapshot h, hfound, Option.map_some, Option.some_or, htarget]

/-- Without one, the disk does. -/
theorem includedFile?_of_no_edge (h : sources.graph master = .ok g) (hd : d ∈ g.documents)
    (hnone : ¬ ∃ e ∈ g.edges, e.source = d.path ∧ e.inclusion.target = name) :
    (sources.snapshot settings master).includedFile? sources.disk d.path name =
      Sources.resolve? ⟨sources.disk, []⟩ name [master.directory, d.path.directory] ".tex" := by
  have hfind : (g.inclusionsOf d.path).find? (·.inclusion.target = name) = none := by
    rw [List.find?_eq_none]
    intro e he hname
    obtain ⟨hmem, hsource⟩ := (mem_inclusionsOf_iff (rooted_of_graph h) hd).mp he
    exact hnone ⟨e, hmem, hsource, of_decide_eq_true hname⟩
  rw [includedFile?_snapshot h, hfind, Option.map_none, Option.none_or]

/-- **Going to an inclusion leads where the graph was built to.**  An inclusion of
a document was resolved to a path when the graph was built.  Going to it finds that
path exactly if the inclusion was followed or the path is a file on disk; so it
always does if there is no buffer at the path, and if the inclusion was refused as
a cycle it does exactly if there is a file. -/
theorem included_file_found_iff (settings : Settings) (h : sources.graph master = .ok g)
    (hd : d ∈ g.documents) (hi : i ∈ d.scan.inclusions)
    (hp : sources.resolve? i.target [master.directory, d.path.directory] ".tex" = some p) :
    let answer := (sources.snapshot settings master).includedFile? sources.disk d.path i.target
    (answer = some p ↔ ⟨d.path, p, i⟩ ∈ g.edges ∨ sources.disk.isFile p = true) ∧
    (sources.buffers.find? p = none → answer = some p) ∧
    (⟨d.path, p, i.line⟩ ∈ g.cycles → (answer = some p ↔ sources.disk.isFile p = true)) := by
  intro answer
  have hanswer : answer = some p ↔ ⟨d.path, p, i⟩ ∈ g.edges ∨ sources.disk.isFile p = true := by
    by_cases hedge : ∃ e ∈ g.edges, e.source = d.path ∧ e.inclusion.target = i.target
    · refine iff_of_true (includedFile?_of_edge h hd hp hedge) (.inl ?_)
      obtain ⟨e, he, hsource, hname⟩ := hedge
      exact edge_of_same_name h hd hi hp he hsource hname
    · rw [show answer = _ from includedFile?_of_no_edge h hd hedge, Sources.resolve?_disk_iff hp]
      refine (or_iff_right fun hmem => hedge ?_).symm
      exact ⟨_, hmem, rfl, rfl⟩
  refine ⟨hanswer, fun hbuffer => hanswer.mpr (.inr ?_), fun hcycle => ?_⟩
  · have hhas := (Sources.resolve?_eq_some hp).1
    rwa [Sources.has, hbuffer] at hhas
  · rw [hanswer]
    refine or_iff_right fun hedge => ?_
    exact not_edge_of_cycle (rooted_of_graph h) hcycle hedge rfl rfl

/-- A master that has not been saved, and a document that has not been either.
The master names a file, which names both; another file with the master's name
lies beside it. -/
def unsavedMaster : Sources :=
  ⟨⟨[(["s", "a.tex"], .file "\\input{m}\n\\input{b}".toUTF8),
      (["s", "m.tex"], .file "".toUTF8)], [], "/"⟩,
    [(⟨"/m.tex"⟩, ⟨"\\input{s/a}", 1⟩), (⟨"/s/b.tex"⟩, ⟨"\\input{s/a}", 1⟩)]⟩

theorem exists_inclusion_of_any (sources : Sources) (master : Path)
    (test : Graph → Document → Inclusion → Bool)
    (h : ((sources.graph master).toOption.any fun g =>
      g.documents.any fun d => d.scan.inclusions.any (test g d)) = true) :
    ∃ g, sources.graph master = .ok g ∧
      ∃ d ∈ g.documents, ∃ i ∈ d.scan.inclusions, test g d i = true := by
  rcases hg : sources.graph master with reason | g
  · rw [hg] at h
    cases h
  · rw [hg] at h
    obtain ⟨d, hd, hany⟩ := List.any_eq_true.mp h
    obtain ⟨i, hi, htest⟩ := List.any_eq_true.mp hany
    exact ⟨g, rfl, d, hd, i, hi, htest⟩

/-- The inclusion of the other unsaved document is found through its edge, and the
one that leads back to the file through the disk. -/
theorem included_file_found_iff_unsaved :
    (∃ g, unsavedMaster.graph ⟨"/m.tex"⟩ = .ok g ∧ ∃ d ∈ g.documents, ∃ i ∈ d.scan.inclusions,
      ⟨d.path, ⟨"/s/b.tex"⟩, i⟩ ∈ g.edges ∧ unsavedMaster.disk.isFile ⟨"/s/b.tex"⟩ = false ∧
      (unsavedMaster.snapshot {} ⟨"/m.tex"⟩).includedFile? unsavedMaster.disk d.path i.target =
        some ⟨"/s/b.tex"⟩) ∧
    ∃ g, unsavedMaster.graph ⟨"/m.tex"⟩ = .ok g ∧ ∃ d ∈ g.documents, ∃ i ∈ d.scan.inclusions,
      ⟨d.path, ⟨"/s/a.tex"⟩, i.line⟩ ∈ g.cycles ∧
      (unsavedMaster.snapshot {} ⟨"/m.tex"⟩).includedFile? unsavedMaster.disk d.path i.target =
        some ⟨"/s/a.tex"⟩ := by
  constructor
  · obtain ⟨g, hg, d, hd, i, hi, htest⟩ := exists_inclusion_of_any unsavedMaster ⟨"/m.tex"⟩
      (fun g d i => decide (⟨d.path, ⟨"/s/b.tex"⟩, i⟩ ∈ g.edges ∧
        unsavedMaster.resolve? i.target [⟨"/"⟩, d.path.directory] ".tex" = some ⟨"/s/b.tex"⟩))
      (by decide +kernel)
    obtain ⟨hedge, hp⟩ := of_decide_eq_true htest
    refine ⟨g, hg, d, hd, i, hi, hedge, by decide +kernel, ?_⟩
    exact (included_file_found_iff {} hg hd hi hp).1.mpr (.inl hedge)
  · obtain ⟨g, hg, d, hd, i, hi, htest⟩ := exists_inclusion_of_any unsavedMaster ⟨"/m.tex"⟩
      (fun g d i => decide (⟨d.path, ⟨"/s/a.tex"⟩, i.line⟩ ∈ g.cycles ∧
        unsavedMaster.resolve? i.target [⟨"/"⟩, d.path.directory] ".tex" = some ⟨"/s/a.tex"⟩))
      (by decide +kernel)
    obtain ⟨hcycle, hp⟩ := of_decide_eq_true htest
    refine ⟨g, hg, d, hd, i, hi, hcycle, ?_⟩
    exact ((included_file_found_iff {} hg hd hi hp).2.2 hcycle).mpr (by decide +kernel)

/-- The inclusion that leads back to the unsaved master does not lead there any
more: the answer is the other file of its name. -/
theorem refused_inclusion_leads_elsewhere :
    ∃ g, unsavedMaster.graph ⟨"/m.tex"⟩ = .ok g ∧ ∃ d ∈ g.documents, ∃ i ∈ d.scan.inclusions,
      ⟨d.path, ⟨"/m.tex"⟩, i.line⟩ ∈ g.cycles ∧
      unsavedMaster.resolve? i.target [⟨"/"⟩, d.path.directory] ".tex" = some ⟨"/m.tex"⟩ ∧
      (unsavedMaster.snapshot {} ⟨"/m.tex"⟩).includedFile? unsavedMaster.disk d.path i.target =
        some ⟨"/s/m.tex"⟩ := by
  obtain ⟨g, hg, d, hd, i, hi, htest⟩ := exists_inclusion_of_any unsavedMaster ⟨"/m.tex"⟩
    (fun g d i => decide (⟨d.path, ⟨"/m.tex"⟩, i.line⟩ ∈ g.cycles ∧
      unsavedMaster.resolve? i.target [⟨"/"⟩, d.path.directory] ".tex" = some ⟨"/m.tex"⟩ ∧
      (unsavedMaster.snapshot {} ⟨"/m.tex"⟩).includedFile? unsavedMaster.disk d.path i.target =
        some ⟨"/s/m.tex"⟩))
    (by decide +kernel)
  exact ⟨g, hg, d, hd, i, hi, of_decide_eq_true htest⟩

end Snapshot

end LatexIndex
