/-
LatexIndex/Proofs/Ledger.lean

Building an include graph on numbers, with a list for everything that is kept.

A `Graph` has two lists, the documents and what became of every inclusion.  A
builder that works on an adjacency structure has eight: the nodes, the arcs
between their numbers, a map from paths to numbers, the numbers in the order in
which they were reached, the numbers that are still to be taken, and the dead
ends, the cycles and the warnings.  `Ledger` has these, and `Ledger.follow` says
for each of its five exits what is pushed to which of them.

The eight lists are views of the two (`Graph.ledger`): nodes, order, map and
queue are the one list of documents, and arcs, dead ends, cycles and warnings
the one list of records.  Every exit keeps them so (`ledger_follow`), and so
does the whole building (`ledger_eq_graph`).
-/
import LatexIndex.Proofs.Catalog
import LatexIndex.Proofs.Discovery

namespace LatexIndex

open Markup Relation

/-- An inclusion that was followed, between documents told by their numbers. -/
structure Arc where
  source : Nat
  target : Nat
  inclusion : Inclusion
  deriving DecidableEq, Repr

/-- What building an include graph keeps. -/
structure Ledger where
  nodes : List Document
  arcs : List Arc
  /-- The number of the document at a path, under the parts of the path. -/
  indexOf : List (List Part × Nat)
  /-- The documents in the order in which they were reached. -/
  order : List Nat
  /-- The documents whose inclusions are still to be followed. -/
  queue : List Nat
  deadEnds : List DeadEnd
  cycles : List CycleEdge
  warnings : List Warning
  deriving DecidableEq, Repr

/-! ### Building with eight lists -/

namespace Ledger

/-- The master alone, still to be taken. -/
def start (master : Path) (d : Document) : Ledger :=
  ⟨[d], [], [(master.parts, 0)], [0], [0], [], [], []⟩

/-- An inclusion of the document at `source` leads nowhere. -/
def lose (l : Ledger) (source : Path) (i : Inclusion) (warning : Warning) : Ledger :=
  { l with
    warnings := l.warnings ++ [warning]
    deadEnds := l.deadEnds ++ [⟨source, i.target, i.line⟩] }

/-- An inclusion of the document at `source` would close a cycle. -/
def refuse (l : Ledger) (source target : Path) (i : Inclusion) : Ledger :=
  { l with
    warnings := l.warnings ++
      [{ (Failure.cycle source target).toWarning with line := some i.line }]
    cycles := l.cycles ++ [⟨source, target, i.line⟩] }

/-- An inclusion joins two documents. -/
def join (l : Ledger) (source target : Nat) (i : Inclusion) : Ledger :=
  { l with arcs := l.arcs ++ [⟨source, target, i⟩] }

/-- A document was loaded from a path that is new. -/
def enter (l : Ledger) (path : Path) (d : Document) : Ledger :=
  { l with
    nodes := l.nodes ++ [d]
    indexOf := l.indexOf ++ [(path.parts, l.nodes.length)]
    order := l.order ++ [l.nodes.length]
    queue := l.queue ++ [l.nodes.length] }

/-- Whether a chain of arcs, perhaps an empty one, leads from one number to
another. -/
def connects (l : Ledger) (source target : Nat) : Bool :=
  Graph.connects (l.arcs.map fun a => (a.source, a.target)) source target

/-- Follows one inclusion of document `n`, the one at `source`. -/
def follow (sources : Sources) (masterDirectory : Path) (n : Nat) (source : Path) (l : Ledger)
    (i : Inclusion) : Ledger :=
  match sources.resolve? i.target [masterDirectory, source.directory] ".tex" with
  | none =>
    l.lose source i
      ⟨.unreadable, source, some i.line, s!"included file `{i.target}` not found"⟩
  | some target =>
    match l.indexOf.lookup target.parts with
    | some existing =>
      if l.connects existing n then l.refuse source target i else l.join n existing i
    | none =>
      match sources.load target with
      | .ok d => (l.enter target d).join n l.nodes.length i
      | .error failure =>
        l.lose source i { failure.toWarning with path := source, line := some i.line }

/-- Takes document `n` and follows its inclusions. -/
def take (sources : Sources) (masterDirectory : Path) (n : Nat) (l : Ledger) : Ledger :=
  match l.nodes[n]? with
  | some d => d.scan.inclusions.foldl (follow sources masterDirectory n d.path) l
  | none => l

/-- Takes the documents of the queue, at most `fuel` of them. -/
def build (sources : Sources) (masterDirectory : Path) : Nat → Ledger → Ledger
  | 0, l => l
  | fuel + 1, l => match l.queue with
    | [] => l
    | n :: queue =>
      build sources masterDirectory fuel (take sources masterDirectory n { l with queue })

end Ledger

/-- The include graph of a master, built with eight lists. -/
def Sources.ledger (sources : Sources) (master : Path) : Except Failure Ledger := do
  let document ← sources.load master
  return Ledger.build sources master.directory (sources.knownPaths.length + 1)
    (.start master document)

namespace Graph

variable {sources : Sources} {master p : Path} {g : Graph} {d e : Document} {n m next : Nat}

/-! ### The eight lists as views of two -/

/-- The number of the document at a path. -/
def number (g : Graph) (p : Path) : Nat :=
  g.documents.findIdx (·.path.same p)

/-- An edge by the numbers of its ends. -/
def arc (g : Graph) (e : Edge) : Arc :=
  ⟨g.number e.source, g.number e.target, e.inclusion⟩

/-- The lists of a graph when the documents from number `next` on are still to be
taken. -/
def ledger (g : Graph) (next : Nat) : Ledger where
  nodes := g.documents
  arcs := g.edges.map g.arc
  indexOf := g.documents.mapIdx fun n d => (d.path.parts, n)
  order := List.range g.documents.length
  queue := List.range' next (g.documents.length - next)
  deadEnds := g.deadEnds
  cycles := g.cycles
  warnings := g.warnings

/-- When no document is left to be taken, it does not matter where to go on. -/
theorem ledger_of_length_le (h : g.documents.length ≤ next) :
    g.ledger next = g.ledger g.documents.length := by
  rw [ledger, ledger, Nat.sub_eq_zero_of_le h, Nat.sub_self]
  rfl

/-! ### Numbers -/

/-- The map from paths to numbers finds the first document at a path. -/
theorem lookup_indexOf (g : Graph) (next : Nat) (p : Path) :
    (g.ledger next).indexOf.lookup p.parts = g.index? p := by
  have hposition := Catalog.position?_eq
    (⟨g.documents, _, rfl⟩ : Catalog fun d : Document => d.path.parts) p.parts
  refine hposition.trans (congrArg (List.findIdx? · g.documents) ?_)
  funext d
  exact Bool.beq_comm

theorem index?_eq_none (h : g.document? p = none) : g.index? p = none := by
  rw [index?, List.findIdx?_eq_none_iff]
  intro d hd
  rw [← Bool.not_eq_true, Path.same_iff]
  exact document?_eq_none.mp h d hd

/-- A document that a path leads to has the number that the path has. -/
theorem index?_eq_number (h : g.document? p = some d) :
    g.index? p = some (g.number d.path) ∧ g.documents[g.number d.path]? = some d := by
  obtain ⟨hd, hparts⟩ := document?_eq_some h
  have hsame : (fun e : Document => e.path.same d.path) = fun e => e.path.same p := by
    funext e
    rw [Path.same, Path.same, hparts]
  have hlt : g.number d.path < g.documents.length :=
    List.findIdx_lt_length_of_exists ⟨d, hd, Path.same_refl _⟩
  constructor
  · rw [index?, List.findIdx?_eq_some_iff_findIdx_eq]
    exact ⟨hlt, by rw [number, hsame]⟩
  · rw [number, hsame, ← List.find?_eq_getElem?_findIdx]
    exact h

theorem getElem?_number (h : Rooted master g) (hd : d ∈ g.documents) :
    g.documents[g.number d.path]? = some d :=
  (index?_eq_number (h.document?_eq hd)).2

/-- A document has the number of its position. -/
theorem number_of_getElem? (h : Rooted master g) (hn : g.documents[n]? = some d) :
    g.number d.path = n := by
  have hlt := (List.getElem?_eq_some_iff.mp hn).1
  refine ((List.getElem?_inj hlt (h.distinct.of_map _)).mp ?_).symm
  rw [hn, getElem?_number h (List.mem_of_getElem? hn)]

/-- A new document changes no number. -/
theorem number_enter (hd : d ∈ g.documents) : (g.enter e).number d.path = g.number d.path := by
  rw [number, documents_enter, List.findIdx_append]
  exact if_pos (List.findIdx_lt_length_of_exists ⟨d, hd, Path.same_refl _⟩)

/-- A new document has the next number. -/
theorem number_enter_new (h : g.document? d.path = none) :
    (g.enter d).number d.path = g.documents.length := by
  have hnone : g.documents.findIdx (·.path.same d.path) = g.documents.length := by
    rw [List.findIdx_eq_length]
    intro e he
    rw [← Bool.not_eq_true, Path.same_iff]
    exact document?_eq_none.mp h e he
  rw [number, documents_enter, List.findIdx_append, hnone, if_neg (Nat.lt_irrefl _)]
  simp

/-- **Reachability on numbers** is reachability on paths. -/
theorem connects_ledger (h : Rooted master g) (hn : g.documents[n]? = some d)
    (hm : g.documents[m]? = some e) :
    (g.ledger next).connects n m = g.reaches d.path e.path := by
  rw [Bool.eq_iff_iff, Ledger.connects, connects_iff, reaches_iff]
  constructor
  · intro hnumbers
    -- a number leads back to the path of the document that has it
    let pathOf : Nat → Path := fun n => (g.documents[n]?.map (·.path)).getD master
    have hpath : ∀ a ∈ g.documents, pathOf (g.number a.path) = a.path := by
      intro a ha
      simp only [pathOf, getElem?_number h ha, Option.map_some, Option.getD_some]
    have hback : ∀ a b, (a, b) ∈ (g.ledger next).arcs.map (fun a => (a.source, a.target)) →
        g.Includes (pathOf a) (pathOf b) := by
      simp only [ledger, List.map_map, List.mem_map, Function.comp_apply, Prod.mk.injEq]
      rintro _ _ ⟨e, he, rfl, rfl⟩
      obtain ⟨⟨a, ha, hsource⟩, b, hb, htarget⟩ := h.ends e he
      refine ⟨e, he, ?_, ?_⟩
      · rw [arc, ← hsource, hpath a ha]
      · rw [arc, ← htarget, hpath b hb]
    have hpaths : ReflTransGen g.Includes (pathOf n) (pathOf m) := hnumbers.lift pathOf hback
    simpa only [pathOf, hn, hm, Option.map_some, Option.getD_some] using hpaths
  · intro hpaths
    rw [← number_of_getElem? h hn, ← number_of_getElem? h hm]
    refine hpaths.lift g.number fun p q hpq => ?_
    obtain ⟨e, he, rfl, rfl⟩ := hpq
    exact List.mem_map.mpr ⟨g.arc e, List.mem_map_of_mem he, rfl⟩

/-! ### One inclusion -/

/-- What a record adds to the lists. -/
theorem ledger_note (g : Graph) (r : Record) (next : Nat) :
    (g.note r).ledger next =
      { g.ledger next with
        arcs := g.edges.map g.arc ++ r.edge?.toList.map g.arc
        deadEnds := g.deadEnds ++ r.deadEnd?.toList
        cycles := g.cycles ++ r.cycle?.toList
        warnings := g.warnings ++ r.warning?.toList } := by
  rw [Ledger.mk.injEq]
  refine ⟨rfl, ?_, rfl, rfl, rfl, ?_, ?_, ?_⟩
  · show (g.note r).edges.map g.arc = _
    rw [edges_note, List.map_append]
  · exact filterMap_note g r Record.deadEnd?
  · exact filterMap_note g r Record.cycle?
  · exact filterMap_note g r Record.warning?

theorem arcs_enter (h : Rooted master g) (d : Document) :
    (g.enter d).edges.map (g.enter d).arc = g.edges.map g.arc := by
  refine List.map_congr_left fun e he => ?_
  obtain ⟨⟨a, ha, hsource⟩, b, hb, htarget⟩ := h.ends e he
  rw [arc, arc, ← hsource, ← htarget, number_enter ha, number_enter hb]

/-- What a new document adds to the lists. -/
theorem ledger_enter (h : Rooted master g) (hnext : next ≤ g.documents.length) (d : Document) :
    (g.enter d).ledger next = (g.ledger next).enter d.path d := by
  rw [ledger, Ledger.enter, Ledger.mk.injEq]
  refine ⟨rfl, arcs_enter h d, ?_, ?_, ?_, rfl, rfl, rfl⟩
  · exact List.mapIdx_concat
  · rw [documents_enter, List.length_append]
    exact List.range_succ
  · rw [documents_enter, List.length_append, List.length_singleton, Nat.sub_add_comm hnext,
      List.range'_concat, Nat.one_mul, Nat.add_sub_of_le hnext]
    rfl

/-- **One inclusion**: each exit pushes to the lists what it adds to the graph. -/
theorem ledger_follow (h : Rooted master g) (hn : g.documents[n]? = some d)
    (masterDirectory : Path) (i : Inclusion) :
    (g.ledger (n + 1)).follow sources masterDirectory n d.path i
      = (g.follow sources masterDirectory d.path i).ledger (n + 1) := by
  have hf := followed_follow sources masterDirectory d.path g i
  have hnumber := number_of_getElem? h hn
  generalize g.follow sources masterDirectory d.path i = g' at hf
  rw [Ledger.follow]
  cases hf with
  | missing hr =>
      rw [hr, ledger_note]
      simp [Ledger.lose, ledger, Record.edge?, Record.deadEnd?, Record.cycle?, Record.warning?]
  | cycle hr hd hreaches =>
      obtain ⟨hindex, hexisting⟩ := index?_eq_number hd
      simp only [hr, lookup_indexOf, hindex]
      rw [connects_ledger h hexisting hn, hreaches, ledger_note]
      simp [Ledger.refuse, ledger, Record.edge?, Record.deadEnd?, Record.cycle?, Record.warning?]
  | joined hr hd hreaches =>
      obtain ⟨hindex, hexisting⟩ := index?_eq_number hd
      simp only [hr, lookup_indexOf, hindex]
      rw [connects_ledger h hexisting hn, hreaches, ledger_note]
      simp [Ledger.join, ledger, Record.edge?, Record.deadEnd?, Record.cycle?, Record.warning?,
        arc, hnumber]
  | discovered hr hd hload =>
      simp only [hr, lookup_indexOf, index?_eq_none hd, hload]
      obtain rfl := Sources.path_of_load hload
      have hlt := (List.getElem?_eq_some_iff.mp hn).1
      rw [ledger_note, ← ledger_enter h hlt]
      simp [Ledger.join, ledger, Record.edge?, Record.deadEnd?, Record.cycle?, Record.warning?,
        arc, number_enter (List.mem_of_getElem? hn), hnumber, number_enter_new hd]
  | @unreadable target reason hr hd hread =>
      have hload : sources.load target = .error (.unreadable target reason) := by
        rw [Sources.load, hread]
      simp only [hr, lookup_indexOf, index?_eq_none hd, hload]
      rw [ledger_note]
      simp [Ledger.lose, ledger, Record.edge?, Record.deadEnd?, Record.cycle?, Record.warning?]

/-! ### The whole building -/

/-- All inclusions of a document. -/
theorem ledger_followAll (h : Sound sources master g) (hn : g.documents[n]? = some d) :
    (g.ledger (n + 1)).take sources master.directory n
      = (g.followAll sources master.directory d).ledger (n + 1) := by
  rw [Ledger.take, show (g.ledger (n + 1)).nodes[n]? = some d from hn, followAll]
  -- the inclusions not yet followed are some of the document's
  suffices hall : ∀ (is : List Inclusion) (g : Graph), is ⊆ d.scan.inclusions →
      Sound sources master g → g.documents[n]? = some d →
      is.foldl (Ledger.follow sources master.directory n d.path) (g.ledger (n + 1))
        = (is.foldl (follow sources master.directory d.path) g).ledger (n + 1) from
    hall d.scan.inclusions g (List.Subset.refl _) h hn
  intro is
  induction is with
  | nil => exact fun g _ _ _ => rfl
  | cons i is ih =>
      intro g his hg hn
      rw [List.cons_subset] at his
      rw [List.foldl_cons, List.foldl_cons, ledger_follow hg.1 hn]
      exact ih _ his.2 (hg.step (List.mem_of_getElem? hn) his.1)
        (getElem?_of_grow documents_grow_follow hn)

/-- With as much fuel as there can be documents left, the queue runs empty. -/
theorem build_ledger {fuel : Nat} (h : Sound sources master g)
    (hfuel : sources.knownPaths.length + 1 ≤ fuel + next) :
    (g.ledger next).build sources master.directory fuel =
      (explore sources master.directory fuel next g).ledger
        (explore sources master.directory fuel next g).documents.length := by
  induction fuel generalizing next g with
  | zero =>
      have hlen := h.2.length_le h.1.distinct
      exact ledger_of_length_le (by omega)
  | succ fuel ih =>
      rw [Ledger.build, explore]
      rcases hd : g.documents[next]? with - | d
      · have hlen := List.getElem?_eq_none_iff.mp hd
        rw [ledger_of_length_le hlen]
        simp [ledger]
      · have hlt := (List.getElem?_eq_some_iff.mp hd).1
        have hqueue : (g.ledger next).queue
            = next :: (g.ledger (next + 1)).queue := by
          rw [ledger, ledger, ← Nat.sub_add_cancel (Nat.sub_pos_of_lt hlt), Nat.sub_sub]
          rfl
        rw [hqueue]
        show Ledger.build _ _ fuel ((g.ledger (next + 1)).take sources master.directory next) = _
        rw [ledger_followAll h hd]
        refine ih ?_ (by omega)
        exact followAll_induction (fun _ _ h hd hi => h.step hd hi) h (List.mem_of_getElem? hd)

end Graph

/-- **The eight lists of a building** are views of the documents and records of
the graph, and nothing is left in the queue. -/
theorem Sources.ledger_eq_graph (sources : Sources) (master : Path) :
    sources.ledger master
      = (sources.graph master).map fun g => g.ledger g.documents.length := by
  rcases hload : sources.load master with failure | d
  · simp only [Sources.ledger, Sources.graph, hload, bind, Except.bind, Except.map]
  · have hstart : Ledger.start master d = (⟨[d], []⟩ : Graph).ledger 0 := by
      obtain rfl := Sources.path_of_load hload
      rfl
    rw [Sources.graph_eq_of_load hload]
    simp only [Sources.ledger, hload, bind, Except.bind, pure, Except.pure, Except.map, hstart]
    exact congrArg _ (Graph.build_ledger (Graph.sound_single hload) (Nat.le_refl _))

end LatexIndex
