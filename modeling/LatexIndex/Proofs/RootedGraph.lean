/-
LatexIndex/Proofs/RootedGraph.lean

An include graph is acyclic and hangs from its master.

An inclusion becomes an edge in two situations.  It leads to a document that
does not reach the one it stands in, or it leads to a new document, which
reaches nothing yet; either way the edge runs from `s` to `t` where `t` does
not reach `s`, and such an edge closes no cycle (`acyclic_insert`).  That the
master has no incoming edge needs no care of its own: the master reaches
every document, so an edge back to it would be a cycle.

The invariant is `Rooted`.  `Rooted.step` carries it over one inclusion and
`rooted_of_graph` over the exploration.  Edges only come, they never go,
which is why an inclusion that was refused as a cycle is still one in the
finished graph.
-/
import LatexIndex.Proofs.Exploration
import LatexIndex.Proofs.Reachability

namespace LatexIndex.Graph

open Relation Markup

/-! ### Adding an edge to a relation -/

section Insert

variable {α : Type*} {r : α → α → Prop} {s t : α}

/-- A chain with one more edge allowed does without it, or passes through
it. -/
theorem transGen_insert (hts : ¬ ReflTransGen r t s) {a b : α}
    (h : TransGen (fun a b => r a b ∨ (a = s ∧ b = t)) a b) :
    TransGen r a b ∨ (ReflTransGen r a s ∧ ReflTransGen r t b) := by
  induction h with
  | single hab =>
      rcases hab with hab | ⟨rfl, rfl⟩
      · exact .inl (.single hab)
      · exact .inr ⟨.refl, .refl⟩
  | tail _ hbc ih =>
      rcases hbc with hbc | ⟨rfl, rfl⟩
      · rcases ih with hab | ⟨has, htb⟩
        · exact .inl (hab.tail hbc)
        · exact .inr ⟨has, htb.tail hbc⟩
      · -- a chain that comes to the edge a second time leads from `t` back to `s`
        rcases ih with hab | ⟨-, hts'⟩
        · exact .inr ⟨hab.to_reflTransGen, .refl⟩
        · exact absurd hts' hts

/-- An edge from `s` to `t` closes no cycle if `t` does not reach `s`. -/
theorem acyclic_insert (hr : ∀ p, ¬ TransGen r p p) (hts : ¬ ReflTransGen r t s) (p : α) :
    ¬ TransGen (fun a b => r a b ∨ (a = s ∧ b = t)) p p := by
  intro h
  rcases transGen_insert hts h with h | ⟨hps, htp⟩
  · exact hr p h
  · exact hts (htp.trans hps)

end Insert

variable {sources : Sources} {master masterDirectory source s t : Path} {g g' : Graph}
  {i : Inclusion} {r : Record} {d : Document}

/-! ### How the edges grow -/

theorem includes_note_of_edge? (h : r.edge? = none) : (g.note r).Includes = g.Includes := by
  funext p q
  simp [Includes, h]

theorem includes_note_edge :
    (g.note ⟨s, i, .edge t⟩).Includes = fun p q => g.Includes p q ∨ (p = s ∧ q = t) := by
  funext p q
  simp [Includes, Record.edge?, or_and_right, exists_or, eq_comm]

theorem includes_enter : (g.enter d).Includes = g.Includes := rfl

theorem includes_note_mono (p q : Path) (h : g.Includes p q) : (g.note r).Includes p q := by
  obtain ⟨e, he, hp, hq⟩ := h
  exact ⟨e, by rw [edges_note]; exact List.mem_append_left _ he, hp, hq⟩

theorem reflTransGen_note {p q : Path} (h : ReflTransGen g.Includes p q) :
    ReflTransGen (g.note r).Includes p q :=
  ReflTransGen.mono includes_note_mono _ _ h

@[simp] theorem document?_note (p : Path) : (g.note r).document? p = g.document? p := rfl

theorem document?_enter {p : Path} {existing : Document} (h : g.document? p = some existing) :
    (g.enter d).document? p = some existing := by
  unfold document? at h ⊢
  rw [documents_enter, List.find?_append, h]
  rfl

/-! ### The invariant -/

/-- The graph hangs from `master`: different documents have different paths,
edges join documents, the master reaches every document, no chain of edges
closes, and every inclusion refused as a cycle would have closed one. -/
structure Rooted (master : Path) (g : Graph) : Prop where
  distinct : (g.documents.map (·.path.parts)).Nodup
  root : ∃ d ∈ g.documents, d.path = master
  ends : ∀ e ∈ g.edges,
    (∃ d ∈ g.documents, d.path = e.source) ∧ (∃ d ∈ g.documents, d.path = e.target)
  reached : ∀ d ∈ g.documents, ReflTransGen g.Includes master d.path
  acyclic : ∀ p, ¬ TransGen g.Includes p p
  closing : ∀ c ∈ g.cycles,
    ∃ d, g.document? c.target = some d ∧ ReflTransGen g.Includes d.path c.source

/-- A document alone is its own root. -/
theorem rooted_single (d : Document) : Rooted d.path ⟨[d], []⟩ where
  distinct := List.nodup_singleton d.path.parts
  root := ⟨d, List.mem_singleton_self d, rfl⟩
  ends := by
    intro e he
    cases he
  reached := by
    intro d' hd'
    obtain rfl := List.mem_singleton.mp hd'
    exact .refl
  acyclic := by
    intro p hp
    obtain ⟨_, -, e, he, -⟩ := TransGen.tail'_iff.mp hp
    cases he
  closing := by
    intro c hc
    cases hc

namespace Rooted

/-- Nothing leads on from a path that is no document's. -/
theorem eq_of_reflTransGen (h : Rooted master g) (ht : g.document? t = none) {q : Path}
    (hq : ReflTransGen g.Includes t q) : q = t := by
  rcases ReflTransGen.cases_head_iff.mp hq with rfl | ⟨_, ⟨e, he, hs, -⟩, -⟩
  · rfl
  · obtain ⟨⟨d, hd, hde⟩, -⟩ := h.ends e he
    exact absurd (congrArg Path.parts (hde.trans hs)) (document?_eq_none.mp ht d hd)

/-- A record without an edge or a cycle changes nothing. -/
theorem note_idle (h : Rooted master g) (he : r.edge? = none) (hc : r.cycle? = none) :
    Rooted master (g.note r) where
  distinct := h.distinct
  root := h.root
  ends := by simpa [he] using h.ends
  reached := by simpa [includes_note_of_edge? he] using h.reached
  acyclic := by simpa [includes_note_of_edge? he] using h.acyclic
  closing := by simpa [includes_note_of_edge? he, hc] using h.closing

/-- Refusing an inclusion whose target reaches its source. -/
theorem note_cycle (h : Rooted master g) {existing : Document}
    (ht : g.document? t = some existing) (hts : ReflTransGen g.Includes existing.path s) :
    Rooted master (g.note ⟨s, i, .cycle t⟩) where
  distinct := h.distinct
  root := h.root
  ends := by simpa [Record.edge?] using h.ends
  reached := fun d hd => reflTransGen_note (h.reached d hd)
  acyclic := by
    rw [includes_note_of_edge? rfl]
    exact h.acyclic
  closing := by
    intro c hc
    rw [cycles_note] at hc
    rcases List.mem_append.mp hc with hc | hc
    · obtain ⟨d, hd, hdc⟩ := h.closing c hc
      exact ⟨d, hd, reflTransGen_note hdc⟩
    · obtain rfl := List.mem_singleton.mp hc
      exact ⟨existing, ht, reflTransGen_note hts⟩

/-- Joining two documents when the second does not reach the first. -/
theorem note_edge (h : Rooted master g) (hs : ∃ d ∈ g.documents, d.path = s)
    {existing : Document} (ht : existing ∈ g.documents)
    (hts : ¬ ReflTransGen g.Includes existing.path s) :
    Rooted master (g.note ⟨s, i, .edge existing.path⟩) where
  distinct := h.distinct
  root := h.root
  ends := by
    intro e he
    rw [edges_note] at he
    rcases List.mem_append.mp he with he | he
    · exact h.ends e he
    · obtain rfl := List.mem_singleton.mp he
      exact ⟨hs, existing, ht, rfl⟩
  reached := fun d hd => reflTransGen_note (h.reached d hd)
  acyclic := by
    rw [includes_note_edge]
    exact acyclic_insert h.acyclic hts
  closing := by
    intro c hc
    rw [cycles_note] at hc
    obtain ⟨d, hd, hdc⟩ := h.closing c (by simpa [Record.cycle?] using hc)
    exact ⟨d, hd, reflTransGen_note hdc⟩

/-- Entering a new document below one that is there. -/
theorem enter_edge (h : Rooted master g) (hs : ∃ d ∈ g.documents, d.path = s)
    (hd : g.document? d.path = none) :
    Rooted master ((g.enter d).note ⟨s, i, .edge d.path⟩) where
  distinct := by
    rw [documents_note, documents_enter, List.map_append, List.map_singleton,
      ← List.concat_eq_append]
    refine h.distinct.concat fun hmem => ?_
    obtain ⟨a, ha, hparts⟩ := List.mem_map.mp hmem
    exact document?_eq_none.mp hd a ha hparts
  root := by
    obtain ⟨m, hm, hmaster⟩ := h.root
    exact ⟨m, List.mem_append_left _ hm, hmaster⟩
  ends := by
    have keep : ∀ {p}, (∃ a ∈ g.documents, a.path = p) →
        ∃ a ∈ g.documents ++ [d], a.path = p :=
      fun ⟨a, ha, hp⟩ => ⟨a, List.mem_append_left _ ha, hp⟩
    intro e he
    rw [edges_note, edges_enter] at he
    rcases List.mem_append.mp he with he | he
    · exact ⟨keep (h.ends e he).1, keep (h.ends e he).2⟩
    · obtain rfl := List.mem_singleton.mp he
      exact ⟨keep hs, d, List.mem_append_right _ (List.mem_singleton_self d), rfl⟩
  reached := by
    have old : ∀ a ∈ g.documents,
        ReflTransGen ((g.enter d).note ⟨s, i, .edge d.path⟩).Includes master a.path :=
      fun a ha => reflTransGen_note (h.reached a ha)
    intro a ha
    rcases List.mem_append.mp ha with ha | ha
    · exact old a ha
    · obtain rfl := List.mem_singleton.mp ha
      obtain ⟨b, hb, rfl⟩ := hs
      refine (old b hb).tail ?_
      rw [includes_note_edge]
      exact .inr ⟨rfl, rfl⟩
  acyclic := by
    rw [includes_note_edge, includes_enter]
    -- the new document reaches only itself, and the old one is another
    refine acyclic_insert h.acyclic fun hds => ?_
    obtain ⟨b, hb, rfl⟩ := hs
    exact document?_eq_none.mp hd b hb (congrArg Path.parts (h.eq_of_reflTransGen hd hds))
  closing := by
    intro c hc
    rw [cycles_note, cycles_enter] at hc
    obtain ⟨a, ha, hac⟩ := h.closing c (by simpa [Record.cycle?] using hc)
    exact ⟨a, document?_enter ha, reflTransGen_note hac⟩

/-- Every inclusion of a document keeps the graph hanging from its master. -/
theorem step (h : Rooted master g) (hs : ∃ d ∈ g.documents, d.path = source)
    (hf : Followed sources masterDirectory source g i g') : Rooted master g' := by
  cases hf with
  | missing => exact h.note_idle rfl rfl
  | unreadable => exact h.note_idle rfl rfl
  | cycle _ hd hc => exact h.note_cycle hd ((reaches_iff _ _ _).mp hc)
  | joined _ hd hc =>
      refine h.note_edge hs (document?_eq_some hd).1 fun hts => ?_
      rw [(reaches_iff _ _ _).mpr hts] at hc
      cases hc
  | discovered _ hd hl =>
      obtain rfl := Sources.path_of_load hl
      exact h.enter_edge hs hd

/-- The master has no incoming edge: it would close a cycle. -/
theorem no_edge_to_master (h : Rooted master g) {e : Edge} (he : e ∈ g.edges) :
    e.target ≠ master := by
  intro ht
  obtain ⟨⟨d, hd, hde⟩, -⟩ := h.ends e he
  exact h.acyclic master (.tail' (h.reached d hd) ⟨e, he, hde.symm, ht⟩)

/-- Documents whose paths have the same parts are one document. -/
theorem eq_of_parts (h : Rooted master g) {a b : Document} (ha : a ∈ g.documents)
    (hb : b ∈ g.documents) (hab : a.path.parts = b.path.parts) : a = b :=
  List.inj_on_of_nodup_map h.distinct ha hb hab

/-- A document is found at its own path. -/
theorem document?_eq (h : Rooted master g) (hd : d ∈ g.documents) :
    g.document? d.path = some d := by
  rcases hfind : g.document? d.path with - | e
  · exact absurd rfl (document?_eq_none.mp hfind d hd)
  · obtain ⟨he, hparts⟩ := document?_eq_some hfind
    rw [h.eq_of_parts he hd hparts]

theorem pairwise_same (h : Rooted master g) :
    g.documents.Pairwise fun a b => a.path.same b.path = false := by
  refine (List.pairwise_map.mp h.distinct).imp fun hab => ?_
  rwa [← Bool.not_eq_true, Path.same_iff]

end Rooted

/-- Every include graph hangs from its master. -/
theorem rooted_of_graph (h : sources.graph master = .ok g) : Rooted master g := by
  refine graph_induction h ?_ ?_
  · intro d hd
    obtain rfl := Sources.path_of_load hd
    exact rooted_single d
  · intro g d i hg hd _
    exact hg.step ⟨d, hd, rfl⟩ (followed_follow _ _ _ _ _)

/-- **The include graph is a rooted acyclic graph.**  Its edges join its
documents, no two of which have the same path; no chain of edges leads from a
path back to it; the master reaches every document and has no incoming edge;
and wherever an inclusion was refused as a cycle, the document it names
reaches the document it stands in. -/
theorem graph_acyclic_rooted (h : sources.graph master = .ok g) :
    (g.documents.Pairwise fun a b => a.path.same b.path = false) ∧
    (∀ e ∈ g.edges,
      (∃ d ∈ g.documents, d.path = e.source) ∧ (∃ d ∈ g.documents, d.path = e.target)) ∧
    (∀ p, ¬ TransGen g.Includes p p) ∧
    (∀ d ∈ g.documents, ReflTransGen g.Includes master d.path) ∧
    (∀ e ∈ g.edges, e.target.same master = false) ∧
    (∀ c ∈ g.cycles,
      ∃ d, g.document? c.target = some d ∧ ReflTransGen g.Includes d.path c.source) := by
  have hg := rooted_of_graph h
  refine ⟨hg.pairwise_same, hg.ends, hg.acyclic, hg.reached, fun e he => ?_, hg.closing⟩
  rw [← Bool.not_eq_true, Path.same_iff]
  intro hsame
  -- the target and the master are documents, so the same parts mean the same path
  obtain ⟨-, d, hd, hde⟩ := hg.ends e he
  obtain ⟨m, hm, hmm⟩ := hg.root
  have hdm : d = m := hg.eq_of_parts hd hm (by rw [hde, hmm, hsame])
  exact hg.no_edge_to_master he (by rw [← hde, hdm, hmm])

/-- A buffer that names itself and a file, and the file names the buffer. -/
def mutualSources : Sources :=
  ⟨⟨[(["a.tex"], .file "\\input{m}".toUTF8)], [], "/"⟩,
    [(⟨"/m.tex"⟩, ⟨"\\input{m}\n\\input{a}", 1⟩)]⟩

theorem graph_acyclic_rooted_mutual :
    ∃ g, mutualSources.graph ⟨"/m.tex"⟩ = .ok g ∧ g.edges.length = 1 ∧ g.cycles.length = 2 ∧
      (∀ p, ¬ TransGen g.Includes p p) ∧
      (∀ d ∈ g.documents, ReflTransGen g.Includes ⟨"/m.tex"⟩ d.path) ∧
      (∀ e ∈ g.edges, e.target.same ⟨"/m.tex"⟩ = false) ∧
      (∀ c ∈ g.cycles,
        ∃ d, g.document? c.target = some d ∧ ReflTransGen g.Includes d.path c.source) := by
  refine ⟨_, rfl, by decide +kernel, by decide +kernel, ?_⟩
  obtain ⟨-, -, hrest⟩ := graph_acyclic_rooted
    (rfl : mutualSources.graph ⟨"/m.tex"⟩ = .ok _)
  exact hrest

end LatexIndex.Graph
