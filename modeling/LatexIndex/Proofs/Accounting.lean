/-
LatexIndex/Proofs/Accounting.lean

What becomes of every inclusion.

The inclusions of a graph are followed one after the other, document by document
(`Graph.inclusions`), and each leaves one entry in one of three lists: it is an
edge, a cycle that was refused, or a dead end.  The last two come with a warning.
`Accounts` says which entries an inclusion may leave; the main theorem
`inclusions_accounted` says that the edges, cycles, dead ends and warnings of a
graph are what its inclusions leave, in their order, and nothing else.

The invariant is `Recorded`: the records so far are those of the inclusions that
come before the place where the exploration stands.  One inclusion moves that
place on by one (`before_step`) and adds one record (`Recorded.step`).
-/
import LatexIndex.Proofs.Discovery

namespace LatexIndex

open Markup Relation

/-- What an inclusion leaves in the lists of a graph. -/
structure Account where
  edge : Option Edge
  cycle : Option CycleEdge
  deadEnd : Option DeadEnd
  warning : Option Warning

/-- What a record leaves. -/
def Record.account (r : Record) : Account :=
  ⟨r.edge?, r.cycle?, r.deadEnd?, r.warning?⟩

/-- The inclusions of a document, each with the document. -/
def Document.inclusions (d : Document) : List (Document × Inclusion) :=
  d.scan.inclusions.map (d, ·)

namespace Graph

variable {sources : Sources} {master masterDirectory : Path} {g g' : Graph} {d : Document}
  {i : Inclusion} {m j : Nat} {account : Account}

/-- Every inclusion of every document, in the order in which they are
followed. -/
def inclusions (g : Graph) : List (Document × Inclusion) :=
  g.documents.flatMap Document.inclusions

/-- What an inclusion may leave in the lists of the graph `g`: an edge to the
document it names; a cycle, when that document reaches the one it stands in; or
a dead end, when it names nothing or nothing that can be read. -/
inductive Accounts (sources : Sources) (masterDirectory : Path) (g : Graph) :
    Document × Inclusion → Account → Prop
  | followed {d b : Document} {i : Inclusion} {target : Path} :
      sources.resolve? i.target [masterDirectory, d.path.directory] ".tex" = some target →
      b ∈ g.documents → b.path.same target = true →
      Accounts sources masterDirectory g (d, i) ⟨some ⟨d.path, b.path, i⟩, none, none, none⟩
  | refused {d b : Document} {i : Inclusion} {target : Path} :
      sources.resolve? i.target [masterDirectory, d.path.directory] ".tex" = some target →
      b ∈ g.documents → b.path.same target = true → ReflTransGen g.Includes b.path d.path →
      Accounts sources masterDirectory g (d, i) ⟨none, some ⟨d.path, target, i.line⟩, none,
        some ⟨.cycle, d.path, some i.line, s!"include cycle back to {target.text}"⟩⟩
  | missing {d : Document} {i : Inclusion} :
      sources.resolve? i.target [masterDirectory, d.path.directory] ".tex" = none →
      Accounts sources masterDirectory g (d, i) ⟨none, none, some ⟨d.path, i.target, i.line⟩,
        some ⟨.unreadable, d.path, some i.line, s!"included file `{i.target}` not found"⟩⟩
  | unreadable {d : Document} {i : Inclusion} {target : Path} {reason : ReadError} :
      sources.resolve? i.target [masterDirectory, d.path.directory] ".tex" = some target →
      sources.read target = .error reason →
      Accounts sources masterDirectory g (d, i) ⟨none, none, some ⟨d.path, i.target, i.line⟩,
        some ⟨.unreadable, d.path, some i.line, s!"cannot read {target.text}: {reason.message}"⟩⟩

/-! ### One inclusion -/

theorem includes_mono (h : g.records <+: g'.records) (p q : Path) (hpq : g.Includes p q) :
    g'.Includes p q := by
  obtain ⟨e, he, hp, hq⟩ := hpq
  exact ⟨e, (h.filterMap Record.edge?).subset he, hp, hq⟩

/-- What an inclusion has left stays left as the graph grows. -/
theorem Accounts.mono (hdocs : g.documents <+: g'.documents) (hrecords : g.records <+: g'.records)
    {task : Document × Inclusion} (h : Accounts sources masterDirectory g task account) :
    Accounts sources masterDirectory g' task account := by
  cases h with
  | followed hr hb hsame => exact .followed hr (hdocs.subset hb) hsame
  | refused hr hb hsame hreach =>
      exact .refused hr (hdocs.subset hb) hsame
        (ReflTransGen.mono (includes_mono hrecords) _ _ hreach)
  | missing hr => exact .missing hr
  | unreadable hr he => exact .unreadable hr he

/-- **Following an inclusion leaves one record**, and with it what the inclusion
may leave. -/
theorem Followed.accounts (h : Followed sources masterDirectory d.path g i g') :
    ∃ r, g'.records = g.records ++ [r] ∧
      Accounts sources masterDirectory g' (d, i) r.account := by
  cases h with
  | missing hr => exact ⟨_, rfl, .missing hr⟩
  | cycle hr hd hreach =>
      obtain ⟨hmem, hparts⟩ := document?_eq_some hd
      refine ⟨_, rfl, .refused hr hmem (Path.same_iff.mpr hparts) ?_⟩
      exact reflTransGen_note ((reaches_iff _ _ _).mp hreach)
  | joined hr hd _ =>
      obtain ⟨hmem, hparts⟩ := document?_eq_some hd
      exact ⟨_, rfl, .followed hr hmem (Path.same_iff.mpr hparts)⟩
  | discovered hr _ hl =>
      obtain rfl := Sources.path_of_load hl
      exact ⟨_, rfl, .followed hr (List.mem_append_right _ (List.mem_singleton_self _))
        (Path.same_refl _)⟩
  | unreadable hr _ he => exact ⟨_, rfl, .unreadable hr he⟩

/-! ### The inclusions before a place -/

/-- The inclusions that are followed before inclusion `j` of document `m`. -/
def before (g : Graph) (m j : Nat) : List (Document × Inclusion) :=
  (g.documents.take m).flatMap Document.inclusions ++
    (g.documents[m]?.toList.flatMap Document.inclusions).take j

theorem before_step (hgrow : g.documents <+: g'.documents) (hd : g.documents[m]? = some d)
    (hi : d.scan.inclusions[j]? = some i) : g'.before m (j + 1) = g.before m j ++ [(d, i)] := by
  have hm : m ≤ g.documents.length := Nat.le_of_lt (List.getElem?_eq_some_iff.mp hd).1
  have hd' := getElem?_of_grow hgrow hd
  obtain ⟨rest, hrest⟩ := hgrow
  rw [before, before, hd, hd', ← hrest, List.take_append_of_le_length hm, List.append_assoc]
  simp [Document.inclusions, List.take_add_one, hi]

theorem before_turn (hd : g.documents[m]? = some d) :
    g.before m d.scan.inclusions.length = g.before (m + 1) 0 := by
  have hall : d.inclusions.take d.scan.inclusions.length = d.inclusions :=
    List.take_of_length_le (Nat.le_of_eq (List.length_map _))
  simp [before, List.take_add_one, hd, hall]

theorem before_end (h : g.documents.length ≤ m) : g.before m 0 = g.inclusions := by
  simp [before, inclusions, List.take_of_length_le h]

/-- The records are those of some inclusions, in their order. -/
def Recorded (sources : Sources) (masterDirectory : Path) (g : Graph)
    (tasks : List (Document × Inclusion)) : Prop :=
  List.Forall₂ (fun task r => Accounts sources masterDirectory g task r.account) tasks g.records

theorem Recorded.step {tasks : List (Document × Inclusion)}
    (h : Recorded sources masterDirectory g tasks)
    (hf : Followed sources masterDirectory d.path g i g') :
    Recorded sources masterDirectory g' (tasks ++ [(d, i)]) := by
  obtain ⟨r, hrecords, haccounts⟩ := hf.accounts
  have hgrow : g.records <+: g'.records := hrecords ▸ List.prefix_append _ _
  rw [Recorded, hrecords]
  refine List.rel_append ?_ (.cons haccounts .nil)
  exact List.Forall₂.imp (fun _ _ => Accounts.mono hf.documents_grow hgrow) h

/-- The records of a graph are those of its inclusions. -/
theorem recorded_of_graph (h : sources.graph master = .ok g) :
    Recorded sources master.directory g g.inclusions := by
  obtain ⟨m, hm, hrecorded⟩ := graph_place_induction h
    (P := fun m j g => Recorded sources master.directory g (g.before m j))
    (fun d _ => by simp [before, Recorded])
    (fun m j g d i hg hd hi => by
      rw [before_step documents_grow_follow hd hi]
      exact hg.step (followed_follow _ _ _ _ _))
    (fun m g d hg hd => before_turn hd ▸ hg)
  rwa [before_end hm] at hrecorded

/-! ### The edges of a document -/

theorem inclusionsOf_perm (h : g.document? d.path = some d) :
    (g.inclusionsOf d.path).Perm (g.edges.filter (·.source = d.path)) := by
  rw [inclusionsOf, h]
  exact (List.mergeSort_perm _ _).trans (List.reverse_perm _)

theorem inclusionsOf_sorted (p : Path) :
    (g.inclusionsOf p).Pairwise fun a b => a.inclusion.line ≤ b.inclusion.line := by
  rw [inclusionsOf]
  split
  · refine (List.pairwise_mergeSort ?_ ?_ _).imp fun hle => by simpa using hle
    · intro a b c hab hbc
      simp only [decide_eq_true_eq] at hab hbc ⊢
      omega
    · intro a b
      simp only [Bool.or_eq_true, decide_eq_true_eq]
      omega
  · exact .nil

/-- The edges from one document to another are counted alike at both ends. -/
theorem countP_inclusionsOf {a b : Document} (ha : g.document? a.path = some a)
    (hb : g.document? b.path = some b) :
    (g.inclusionsOf a.path).countP (·.target = b.path) = (g.includersOf b.path).count a.path := by
  rw [(inclusionsOf_perm ha).countP_eq, includersOf, hb, List.count, List.countP_map,
    (List.reverse_perm _).countP_eq, List.countP_filter, List.countP_filter]
  refine List.countP_congr fun e _ => ?_
  simp [and_comm]

/-- **Every inclusion is accounted for once.**  The edges, cycles, dead ends and
warnings of a graph are what its inclusions leave, one after the other in the
order in which they are followed.  The edges of a document are listed by line,
and the edges from one document to another are as many seen from either end. -/
theorem inclusions_accounted (h : sources.graph master = .ok g) :
    (∃ accounts, List.Forall₂ (Accounts sources master.directory g) g.inclusions accounts ∧
      g.edges = accounts.filterMap (·.edge) ∧ g.cycles = accounts.filterMap (·.cycle) ∧
      g.deadEnds = accounts.filterMap (·.deadEnd) ∧
      g.warnings = accounts.filterMap (·.warning)) ∧
    (∀ d ∈ g.documents, (g.inclusionsOf d.path).Perm (g.edges.filter (·.source = d.path)) ∧
      (g.inclusionsOf d.path).Pairwise fun a b => a.inclusion.line ≤ b.inclusion.line) ∧
    (∀ a ∈ g.documents, ∀ b ∈ g.documents,
      (g.inclusionsOf a.path).countP (·.target = b.path)
        = (g.includersOf b.path).count a.path) := by
  have hrooted := rooted_of_graph h
  refine ⟨⟨g.records.map Record.account, ?_, ?_⟩, fun d hd => ?_, fun a ha b hb => ?_⟩
  · exact List.forall₂_map_right_iff.mpr (recorded_of_graph h)
  · simp only [List.filterMap_map]
    exact ⟨rfl, rfl, rfl, rfl⟩
  · exact ⟨inclusionsOf_perm (hrooted.document?_eq hd), inclusionsOf_sorted _⟩
  · exact countP_inclusionsOf (hrooted.document?_eq ha) (hrooted.document?_eq hb)

/-- A master that names one file twice on a line and a file that is not UTF-8;
the file names the master, the broken file and nothing that is there. -/
def tornSources : Sources :=
  ⟨⟨[(["m.tex"], .file "\\input{a}\\input{a}\n\\input{b}".toUTF8),
      (["a.tex"], .file "\\input{m}\n\\input{b}\n\\input{c}".toUTF8),
      (["b.tex"], .file ⟨#[255]⟩)], [], "/"⟩, []⟩

theorem inclusions_accounted_torn :
    ∃ g, tornSources.graph ⟨"/m.tex"⟩ = .ok g ∧
      (g.inclusions.length = 6 ∧ g.edges.length = 2 ∧ g.cycles.length = 1 ∧
        g.deadEnds.length = 3 ∧ g.warnings.length = 4) ∧
      ∃ accounts, List.Forall₂ (Accounts tornSources (Path.mk "/m.tex").directory g)
          g.inclusions accounts ∧
        g.edges = accounts.filterMap (·.edge) ∧ g.cycles = accounts.filterMap (·.cycle) ∧
        g.deadEnds = accounts.filterMap (·.deadEnd) ∧
        g.warnings = accounts.filterMap (·.warning) := by
  refine ⟨_, rfl, by decide +kernel, ?_⟩
  exact (inclusions_accounted (rfl : tornSources.graph ⟨"/m.tex"⟩ = .ok _)).1

end Graph

end LatexIndex
