/-
LatexIndex/Proofs/BreadthFirst.lean

The order in which documents are reached is breadth-first.

A *place* is the number of a document and the number of one of its inclusions;
places are followed in lexicographic order.  Every document but the master is
reached from the first place that names it, and so the order of the documents is
the order of these places.  The invariant `Ordered` says it for an unfinished
graph: the documents so far have first places, in increasing order, before the
place that is the next to be followed.  Documents that come later only add later
places (`isLeast_namings_grow`), so a first place stays the first one.

Distances need no queue of their own.  A document is not further from the master
than a later one: the place that first names it is not after the place that first
names the other, so the documents at these places are in that order too, and the
claim about them is the claim about chains shorter by one (`leads_of_le`).
-/
import Mathlib.Data.Prod.Lex
import Mathlib.Order.Lattice.Nat
import LatexIndex.Proofs.Discovery
import LatexIndex.Proofs.PlainPaths

namespace LatexIndex

open Markup

namespace Sources

variable {sources : Sources} {master p q : Path} {n : Nat}

/-- A chain of `n` inclusions, each of which leads to something readable, leads
from the master to a path. -/
inductive Leads (sources : Sources) (master : Path) : Nat → Path → Prop
  | master : Leads sources master 0 master
  | inclusion {n : Nat} {p q : Path} {d : Document} {i : Inclusion} :
      Leads sources master n p → sources.load p = .ok d → i ∈ d.scan.inclusions →
      sources.resolve? i.target [master.directory, p.directory] ".tex" = some q →
      sources.Loads q → Leads sources master (n + 1) q

/-- The lengths of the chains of inclusions that lead from the master to a path,
however it is written. -/
def lengths (sources : Sources) (master p : Path) : Set Nat :=
  {n | ∃ q, sources.Leads master n q ∧ q.same p = true}

theorem Leads.included (h : sources.Leads master n p) : sources.Included master p := by
  induction h with
  | master => exact .master
  | inclusion _ hl hi hr hq ih => exact .inclusion ih hl hi hr hq

theorem Included.leads (h : sources.Included master p) : ∃ n, sources.Leads master n p := by
  induction h with
  | master => exact ⟨0, .master⟩
  | inclusion _ hl hi hr hq ih =>
      obtain ⟨n, hn⟩ := ih
      exact ⟨n + 1, .inclusion hn hl hi hr hq⟩

theorem Leads.exists_load (hm : ∃ d, sources.load master = .ok d)
    (h : sources.Leads master n p) : ∃ d, sources.load p = .ok d := by
  cases h with
  | master => exact hm
  | inclusion _ _ _ _ hq => exact loads_iff.mp hq

/-- Names that resolve to one file resolve to one path. -/
theorem eq_of_resolve? {name name' extension : String} {bases bases' : List Path}
    (hp : sources.resolve? name bases extension = some p)
    (hq : sources.resolve? name' bases' extension = some q) (h : p.parts = q.parts) : p = q := by
  obtain ⟨-, p', rfl⟩ := resolve?_eq_some hp
  obtain ⟨-, q', rfl⟩ := resolve?_eq_some hq
  rw [← Path.normalize_normalize p', Path.normalize_congr h, Path.normalize_normalize]

end Sources

namespace Graph

variable {sources : Sources} {master masterDirectory p : Path} {g g' : Graph} {d : Document}
  {i : Inclusion} {m j : Nat} {place : Lex (Nat × Nat)}

/-! ### Places -/

/-- The path that the inclusion at a place resolves to. -/
def target? (sources : Sources) (masterDirectory : Path) (g : Graph)
    (place : Lex (Nat × Nat)) : Option Path := do
  let d ← g.documents[(ofLex place).1]?
  let i ← d.scan.inclusions[(ofLex place).2]?
  sources.resolve? i.target [masterDirectory, d.path.directory] ".tex"

/-- The places of the inclusions that resolve to a path, however it is
written. -/
def namings (sources : Sources) (masterDirectory : Path) (g : Graph) (p : Path) :
    Set (Lex (Nat × Nat)) :=
  {place | ∃ target, g.target? sources masterDirectory place = some target ∧
    target.same p = true}

theorem target?_eq_some {target : Path} :
    g.target? sources masterDirectory place = some target ↔
      ∃ d i, g.documents[(ofLex place).1]? = some d ∧
        d.scan.inclusions[(ofLex place).2]? = some i ∧
        sources.resolve? i.target [masterDirectory, d.path.directory] ".tex" = some target := by
  simp [target?, Option.bind_eq_some_iff]

/-- What a place of a document names stays the same when documents come. -/
theorem target?_of_lt (h : g.documents <+: g'.documents)
    (hlt : (ofLex place).1 < g.documents.length) :
    g.target? sources masterDirectory place = g'.target? sources masterDirectory place := by
  obtain ⟨rest, hrest⟩ := h
  rw [target?, target?, ← hrest, List.getElem?_append_left hlt]

theorem target?_grow (h : g.documents <+: g'.documents) {target : Path}
    (ht : g.target? sources masterDirectory place = some target) :
    g'.target? sources masterDirectory place = some target := by
  obtain ⟨d, i, hd, hi, hr⟩ := target?_eq_some.mp ht
  exact target?_eq_some.mpr ⟨d, i, getElem?_of_grow h hd, hi, hr⟩

/-- The first place that names a path stays the first when documents come. -/
theorem isLeast_namings_grow (h : g.documents <+: g'.documents)
    (hp : IsLeast (g.namings sources masterDirectory p) place) :
    IsLeast (g'.namings sources masterDirectory p) place := by
  obtain ⟨⟨target, ht, hsame⟩, hleast⟩ := hp
  refine ⟨⟨target, target?_grow h ht, hsame⟩, ?_⟩
  rintro other ⟨target', ht', hsame'⟩
  by_cases hother : (ofLex other).1 < g.documents.length
  · exact hleast ⟨target', (target?_of_lt h hother).trans ht', hsame'⟩
  · -- a document that came later is later than every place there was
    obtain ⟨d, -, hd, -⟩ := target?_eq_some.mp ht
    have hlt := (List.getElem?_eq_some_iff.mp hd).1
    exact Prod.Lex.le_iff.mpr (.inl (by omega))

/-- A place is the first that names a document, and names it by its path. -/
structure FirstNamed (sources : Sources) (masterDirectory : Path) (g : Graph) (d : Document)
    (place : Lex (Nat × Nat)) : Prop where
  named : g.target? sources masterDirectory place = some d.path
  least : IsLeast (g.namings sources masterDirectory d.path) place

theorem FirstNamed.grow (h : g.FirstNamed sources masterDirectory d place)
    (hgrow : g.documents <+: g'.documents) : g'.FirstNamed sources masterDirectory d place :=
  ⟨target?_grow hgrow h.named, isLeast_namings_grow hgrow h.least⟩

theorem lt_toLex_succ (place : Lex (Nat × Nat)) (m j : Nat) :
    place < toLex (m, j + 1) ↔ place < toLex (m, j) ∨ place = toLex (m, j) := by
  rw [Prod.Lex.lt_iff, Prod.Lex.lt_iff, ← ofLex_inj, Prod.ext_iff]
  simp only [ofLex_toLex]
  omega

/-! ### The invariant -/

/-- Following an inclusion keeps the documents or enters the one that it
names. -/
theorem Followed.documents_cases (h : Followed sources masterDirectory d.path g i g') :
    g'.documents = g.documents ∨
      ∃ e, sources.resolve? i.target [masterDirectory, d.path.directory] ".tex" = some e.path ∧
        g.document? e.path = none ∧ sources.load e.path = .ok e ∧
        g'.documents = g.documents ++ [e] := by
  cases h with
  | missing | cycle | joined | unreadable => exact .inl rfl
  | discovered hr hd hl =>
      obtain rfl := Sources.path_of_load hl
      exact .inr ⟨_, hr, hd, hl, rfl⟩

/-- The documents of the graph `g` are in the order of the first places that name
them, when inclusion `j` of document `m` is the next to be followed. -/
structure Ordered (sources : Sources) (master : Path) (m j : Nat) (g : Graph) : Prop where
  first : ∃ d rest, g.documents = d :: rest ∧ d.path = master
  placed : ∃ places : List (Lex (Nat × Nat)),
    List.Forall₂ (g.FirstNamed sources master.directory) g.documents.tail places ∧
    places.Pairwise (· < ·) ∧ ∀ place ∈ places, place < toLex (m, j)
  met : ∀ place < toLex (m, j), ∀ target, g.target? sources master.directory place = some target →
    sources.Loads target → g.contains target = true

theorem ordered_single (h : sources.load master = .ok d) :
    Ordered sources master 0 0 ⟨[d], []⟩ where
  first := ⟨d, [], rfl, Sources.path_of_load h⟩
  placed := ⟨[], .nil, .nil, by simp⟩
  met := by
    intro place hlt
    rw [Prod.Lex.lt_iff] at hlt
    simp at hlt

namespace Ordered

/-- What an inclusion that is followed leads to is a document afterwards. -/
theorem met_step (h : Ordered sources master m j g) (hd : g.documents[m]? = some d)
    (hi : d.scan.inclusions[j]? = some i)
    (hf : Followed sources master.directory d.path g i g') :
    ∀ place < toLex (m, j + 1), ∀ target,
      g'.target? sources master.directory place = some target →
      sources.Loads target → g'.contains target = true := by
  have hm := (List.getElem?_eq_some_iff.mp hd).1
  intro place hlt target ht hl
  -- the place is one of a document that was there before
  have hbefore : g.target? sources master.directory place = some target := by
    have hplace : (ofLex place).1 < g.documents.length := by
      rw [Prod.Lex.lt_iff, ofLex_toLex] at hlt
      omega
    exact (target?_of_lt hf.documents_grow hplace).trans ht
  rcases (lt_toLex_succ place m j).mp hlt with hlt | rfl
  · exact contains_mono hf.documents_grow (h.met place hlt target hbefore hl)
  · obtain ⟨d', i', hd', hi', hr⟩ := target?_eq_some.mp hbefore
    obtain rfl := Option.some.inj (hd.symm.trans hd')
    obtain rfl := Option.some.inj (hi.symm.trans hi')
    exact hf.contains hr hl

/-- A document is entered from the first place that names it. -/
theorem firstNamed_entered (h : Ordered sources master m j g) (hd : g.documents[m]? = some d)
    (hi : d.scan.inclusions[j]? = some i) {e : Document}
    (hr : sources.resolve? i.target [master.directory, d.path.directory] ".tex" = some e.path)
    (hnone : g.document? e.path = none) (hl : sources.load e.path = .ok e) :
    g.FirstNamed sources master.directory e (toLex (m, j)) := by
  have htarget : g.target? sources master.directory (toLex (m, j)) = some e.path :=
    target?_eq_some.mpr ⟨d, i, hd, hi, hr⟩
  refine ⟨htarget, ⟨e.path, htarget, Path.same_refl _⟩, ?_⟩
  rintro place ⟨target, ht, hsame⟩
  obtain ⟨d', i', -, -, hr'⟩ := target?_eq_some.mp ht
  -- an earlier place that names the document would have entered it
  by_contra hle
  obtain rfl : target = e.path := Sources.eq_of_resolve? hr' hr (Path.same_iff.mp hsame)
  have hcontains := h.met place (not_le.mp hle) e.path ht (Sources.loads_iff.mpr ⟨e, hl⟩)
  obtain ⟨a, ha, hparts⟩ := contains_iff.mp hcontains
  exact document?_eq_none.mp hnone a ha hparts

/-- Every inclusion keeps the documents in order. -/
theorem step (h : Ordered sources master m j g) (hd : g.documents[m]? = some d)
    (hi : d.scan.inclusions[j]? = some i)
    (hf : Followed sources master.directory d.path g i g') :
    Ordered sources master m (j + 1) g' := by
  obtain ⟨a, rest, hdocs, hmaster⟩ := h.first
  obtain ⟨places, hplaces, hrising, hbefore⟩ := h.placed
  have hnow : toLex (m, j) < toLex (m, j + 1) := (lt_toLex_succ _ m j).mpr (.inr rfl)
  have hold : List.Forall₂ (g'.FirstNamed sources master.directory) g.documents.tail places :=
    hplaces.imp fun _ _ hplace => hplace.grow hf.documents_grow
  refine ⟨?_, ?_, h.met_step hd hi hf⟩
  · obtain ⟨more, hmore⟩ := hf.documents_grow
    exact ⟨a, rest ++ more, by rw [← hmore, hdocs, List.cons_append], hmaster⟩
  · rcases hf.documents_cases with hsame | ⟨e, hr, hnone, hl, henter⟩
    · rw [hsame]
      exact ⟨places, hold, hrising, fun place hplace => (hbefore place hplace).trans hnow⟩
    · have hnew := (h.firstNamed_entered hd hi hr hnone hl).grow hf.documents_grow
      refine ⟨places ++ [toLex (m, j)], ?_, ?_, ?_⟩
      · rw [henter, List.tail_append_of_ne_nil (by simp [hdocs])]
        exact List.rel_append hold (.cons hnew .nil)
      · rw [List.pairwise_append]
        refine ⟨hrising, List.pairwise_singleton _ _, fun place hplace now hmem => ?_⟩
        rw [List.mem_singleton.mp hmem]
        exact hbefore place hplace
      · intro place hplace
        rcases List.mem_append.mp hplace with hplace | hplace
        · exact (hbefore place hplace).trans hnow
        · rwa [List.mem_singleton.mp hplace]

/-- Past the last inclusion of a document the next document is taken. -/
theorem turn (h : Ordered sources master m d.scan.inclusions.length g)
    (hd : g.documents[m]? = some d) : Ordered sources master (m + 1) 0 g := by
  obtain ⟨places, hplaces, hrising, hbefore⟩ := h.placed
  refine ⟨h.first, ⟨places, hplaces, hrising, fun place hplace => ?_⟩, ?_⟩
  · have hlt := hbefore place hplace
    rw [Prod.Lex.lt_iff, ofLex_toLex] at hlt ⊢
    omega
  · intro place hlt target ht hl
    refine h.met place ?_ target ht hl
    obtain ⟨d', i', hd', hi', -⟩ := target?_eq_some.mp ht
    have hinside := (List.getElem?_eq_some_iff.mp hi').1
    rw [Prod.Lex.lt_iff, ofLex_toLex] at hlt ⊢
    rcases Nat.lt_or_ge (ofLex place).1 m with hm | hm
    · exact .inl hm
    · have heq : (ofLex place).1 = m := by omega
      rw [heq, hd] at hd'
      obtain rfl := Option.some.inj hd'
      exact .inr ⟨heq, hinside⟩

end Ordered

/-! ### The finished graph -/

/-- Every document of a graph but the master has a first place, and the first
places are in the order of the documents. -/
theorem placed_of_graph (h : sources.graph master = .ok g) :
    (∃ d rest, g.documents = d :: rest ∧ d.path = master) ∧
    ∃ places : List (Lex (Nat × Nat)),
      List.Forall₂ (g.FirstNamed sources master.directory) g.documents.tail places ∧
      places.Pairwise (· < ·) := by
  obtain ⟨m, -, hordered⟩ := graph_place_induction h (P := Ordered sources master)
    (fun d hl => ordered_single hl)
    (fun m j g d i hg hd hi => hg.step hd hi (followed_follow _ _ _ _ _))
    (fun m g d hg hd => hg.turn hd)
  obtain ⟨places, hplaces, hrising, -⟩ := hordered.placed
  exact ⟨hordered.first, places, hplaces, hrising⟩

/-- The first places of two documents are in the order of the documents. -/
theorem exists_places (h : sources.graph master = .ok g) {k l : Nat} {x y : Document}
    (hx : g.documents[k + 1]? = some x) (hy : g.documents[l + 1]? = some y) :
    ∃ p q, g.FirstNamed sources master.directory x p ∧
      g.FirstNamed sources master.directory y q ∧ (k < l ↔ p < q) ∧ (k ≤ l → p ≤ q) := by
  obtain ⟨-, places, hplaces, hrising⟩ := placed_of_graph h
  rw [← List.getElem?_tail] at hx hy
  obtain ⟨hk, rfl⟩ := List.getElem?_eq_some_iff.mp hx
  obtain ⟨hl, rfl⟩ := List.getElem?_eq_some_iff.mp hy
  have hlength := hplaces.length_eq
  have hk' : k < places.length := by omega
  have hl' : l < places.length := by omega
  have hlt : k < l → places[k] < places[l] := List.pairwise_iff_getElem.mp hrising k l hk' hl'
  have hgt : l < k → places[l] < places[k] := List.pairwise_iff_getElem.mp hrising l k hl' hk'
  refine ⟨places[k], places[l], hplaces.get hk hk', hplaces.get hl hl', ⟨hlt, fun hpq => ?_⟩,
    fun hle => ?_⟩
  · rcases Nat.lt_trichotomy k l with hkl | rfl | hkl
    · exact hkl
    · exact absurd hpq (lt_irrefl _)
    · exact absurd (hgt hkl) (lt_asymm hpq)
  · rcases Nat.lt_or_eq_of_le hle with hkl | rfl
    · exact le_of_lt (hlt hkl)
    · exact le_refl _

/-- An inclusion of a path of the project stands at a place of the graph. -/
theorem exists_place (h : sources.graph master = .ok g) {q : Path}
    (hp : sources.Included master p) (hload : sources.load p = .ok d)
    (hi : i ∈ d.scan.inclusions)
    (hr : sources.resolve? i.target [master.directory, p.directory] ".tex" = some q) :
    ∃ c j b, g.documents[c]? = some b ∧ b.path.parts = p.parts ∧
      g.target? sources master.directory (toLex (c, j)) = some q := by
  have hsound := sound_of_graph h
  obtain ⟨b, hb, hbp⟩ := exists_document_of_included hsound (handled_of_graph h) hp
  obtain ⟨c, hc⟩ := List.mem_iff_getElem?.mp hb
  have hscan : b.scan = d.scan := Sources.load_congr hbp (hsound.2.loaded b hb) hload
  obtain ⟨j, hj⟩ := List.mem_iff_getElem?.mp (hscan ▸ hi)
  refine ⟨c, j, b, hc, hbp, target?_eq_some.mpr ⟨b, i, hc, hj, ?_⟩⟩
  rw [Sources.resolve?_congr (Path.parts_directory_congr hbp), hr]

/-- A chain that leads to the document of a place leads on to what is named
there. -/
theorem leads_target (h : sources.graph master = .ok g) {n : Nat} {e x : Document}
    (hx : x ∈ g.documents) (he : g.documents[(ofLex place).1]? = some e)
    (ht : g.target? sources master.directory place = some x.path)
    (hp : sources.Leads master n p) (hparts : p.parts = e.path.parts) :
    sources.Leads master (n + 1) x.path := by
  have hsound := sound_of_graph h
  obtain ⟨e', i, he', hi, hr⟩ := target?_eq_some.mp ht
  obtain rfl := Option.some.inj (he.symm.trans he')
  obtain ⟨d, hd⟩ := hp.exists_load (Sources.exists_load_of_graph h)
  have hscan : e.scan = d.scan :=
    Sources.load_congr hparts.symm (hsound.2.loaded e (List.mem_of_getElem? he)) hd
  refine .inclusion hp hd (hscan ▸ List.mem_of_getElem? hi) ?_
    (Sources.loads_iff.mpr ⟨x, hsound.2.loaded x hx⟩)
  rw [Sources.resolve?_congr (Path.parts_directory_congr hparts), hr]

/-- Only the first document is the master. -/
theorem parts_ne_master (h : sources.graph master = .ok g) {l : Nat} {y : Document}
    (hy : g.documents[l + 1]? = some y) : y.path.parts ≠ master.parts := by
  obtain ⟨⟨a, rest, hdocs, rfl⟩, -⟩ := placed_of_graph h
  have hdistinct := (rooted_of_graph h).distinct
  rw [hdocs, List.getElem?_cons_succ] at hy
  rw [hdocs, List.map_cons, List.nodup_cons] at hdistinct
  intro hparts
  exact hdistinct.1 (List.mem_map.mpr ⟨y, List.mem_of_getElem? hy, hparts⟩)

/-- **An earlier document is not further from the master**: wherever a chain of
inclusions leads to a document, one that is no longer leads to each document
before it. -/
theorem leads_of_le (h : sources.graph master = .ok g) {k l n : Nat} {x y : Document} {q : Path}
    (hx : g.documents[k]? = some x) (hy : g.documents[l]? = some y) (hkl : k ≤ l)
    (hl : sources.Leads master n q) (hq : q.parts = y.path.parts) :
    ∃ n' ≤ n, ∃ p, sources.Leads master n' p ∧ p.parts = x.path.parts := by
  induction hl generalizing k l x y with
  | master =>
      rcases l with - | l
      · obtain rfl : k = 0 := by omega
        obtain rfl := Option.some.inj (hx.symm.trans hy)
        exact ⟨0, Nat.le_refl 0, master, .master, hq⟩
      · exact absurd hq.symm (parts_ne_master h hy)
  | @inclusion n p q d i hp hload hi hr hloads ih =>
      rcases k with - | k
      · obtain ⟨⟨a, rest, hdocs, hmaster⟩, -⟩ := placed_of_graph h
        obtain rfl : a = x := by simpa [hdocs] using hx
        exact ⟨0, Nat.zero_le _, master, .master, by rw [hmaster]⟩
      obtain ⟨l, rfl⟩ := Nat.exists_eq_add_of_le' (show 1 ≤ l by omega)
      obtain ⟨c, j, b, hc, hbp, hnaming⟩ := exists_place h hp.included hload hi hr
      obtain ⟨place, place', hfirst, hfirst', -, hmono⟩ := exists_places h hx hy
      -- the document that first names `x` is not after the one that names `y` here
      have hle : place ≤ toLex (c, j) :=
        (hmono (by omega)).trans (hfirst'.least.2 ⟨q, hnaming, Path.same_iff.mpr hq⟩)
      have hbefore : (ofLex place).1 ≤ c := by
        rw [Prod.Lex.le_iff, ofLex_toLex] at hle
        omega
      obtain ⟨e, -, he, -⟩ := target?_eq_some.mp hfirst.named
      obtain ⟨n', hn', p', hp', hparts⟩ := ih he hc hbefore hbp.symm
      exact ⟨n' + 1, Nat.succ_le_succ hn', x.path,
        leads_target h (List.mem_of_getElem? hx) he hfirst.named hp' hparts, rfl⟩

/-- A document has a distance from the master. -/
theorem exists_isLeast_lengths (h : sources.graph master = .ok g) {x : Document}
    (hx : x ∈ g.documents) : ∃ n, IsLeast (sources.lengths master x.path) n := by
  obtain ⟨n, hn⟩ := ((sound_of_graph h).2.included x hx).leads
  have hne : (sources.lengths master x.path).Nonempty := ⟨n, x.path, hn, Path.same_refl _⟩
  exact ⟨sInf (sources.lengths master x.path), Nat.sInf_mem hne, fun _ => Nat.sInf_le⟩

/-- **Documents are reached breadth-first.**  The master comes first.  Of two
other documents the one comes before the other exactly if the first place that
names it, the number of a document and then the number of an inclusion of it,
comes before the first place that names the other.  And no document comes before
one that fewer inclusions lead to. -/
theorem documents_breadth_first (h : sources.graph master = .ok g) :
    (∃ d rest, g.documents = d :: rest ∧ d.path = master) ∧
    (∀ (k l : Nat) (x y : Document), 0 < k → 0 < l →
      g.documents[k]? = some x → g.documents[l]? = some y →
      ∃ p q, IsLeast (g.namings sources master.directory x.path) p ∧
        IsLeast (g.namings sources master.directory y.path) q ∧ (k < l ↔ p < q)) ∧
    (∀ (k l : Nat) (x y : Document), k ≤ l → g.documents[k]? = some x → g.documents[l]? = some y →
      ∃ m n, IsLeast (sources.lengths master x.path) m ∧
        IsLeast (sources.lengths master y.path) n ∧ m ≤ n) := by
  refine ⟨(placed_of_graph h).1, fun k l x y hk hl hx hy => ?_, fun k l x y hkl hx hy => ?_⟩
  · obtain ⟨k, rfl⟩ := Nat.exists_eq_add_of_le' hk
    obtain ⟨l, rfl⟩ := Nat.exists_eq_add_of_le' hl
    obtain ⟨p, q, hp, hq, hiff, -⟩ := exists_places h hx hy
    exact ⟨p, q, hp.least, hq.least, by rw [← hiff]; omega⟩
  · obtain ⟨m, hm⟩ := exists_isLeast_lengths h (List.mem_of_getElem? hx)
    obtain ⟨n, hn⟩ := exists_isLeast_lengths h (List.mem_of_getElem? hy)
    refine ⟨m, n, hm, hn, ?_⟩
    obtain ⟨q, hq, hsame⟩ := hn.1
    obtain ⟨n', hn', p, hp, hparts⟩ := leads_of_le h hx hy hkl hq (Path.same_iff.mp hsame)
    exact (hm.2 ⟨p, hp, Path.same_iff.mpr hparts⟩).trans hn'

/-- A master with two files; one of them names the master before a third file,
which the other names too, before a fourth. -/
def sharedSources : Sources :=
  ⟨⟨[(["m.tex"], .file "\\input{a}\n\\input{b}".toUTF8),
      (["a.tex"], .file "\\input{m}\n\\input{c}".toUTF8),
      (["b.tex"], .file "\\input{c}\n\\input{d}".toUTF8),
      (["c.tex"], .file "".toUTF8), (["d.tex"], .file "".toUTF8)], [], "/"⟩, []⟩

theorem documents_breadth_first_shared :
    ∃ (g : Graph) (c d : Document), sharedSources.graph ⟨"/m.tex"⟩ = .ok g ∧
      g.documents[3]? = some c ∧ g.documents[4]? = some d ∧
      c.path = ⟨"/c.tex"⟩ ∧ d.path = ⟨"/d.tex"⟩ ∧
      (∃ p q, IsLeast (g.namings sharedSources (Path.mk "/m.tex").directory c.path) p ∧
        IsLeast (g.namings sharedSources (Path.mk "/m.tex").directory d.path) q ∧ p < q) ∧
      (∃ m n, IsLeast (sharedSources.lengths ⟨"/m.tex"⟩ c.path) m ∧
        IsLeast (sharedSources.lengths ⟨"/m.tex"⟩ d.path) n ∧ m ≤ n) := by
  have hpaths : (sharedSources.graph ⟨"/m.tex"⟩).toOption.map (·.documents.map (·.path))
      = some [⟨"/m.tex"⟩, ⟨"/a.tex"⟩, ⟨"/b.tex"⟩, ⟨"/c.tex"⟩, ⟨"/d.tex"⟩] := by decide +kernel
  rcases hg : sharedSources.graph ⟨"/m.tex"⟩ with failure | g
  · rw [hg] at hpaths
    cases hpaths
  · rw [hg] at hpaths
    have hdocs : g.documents.map (·.path) = _ := Option.some.inj hpaths
    have hpath : ∀ (n : Nat) (p : Path), (g.documents.map (·.path))[n]? = some p →
        ∃ d : Document, g.documents[n]? = some d ∧ d.path = p := by
      intro n p hp
      rwa [List.getElem?_map, Option.map_eq_some_iff] at hp
    obtain ⟨c, hc, hcpath⟩ := hpath 3 ⟨"/c.tex"⟩ (by rw [hdocs]; rfl)
    obtain ⟨d, hd, hdpath⟩ := hpath 4 ⟨"/d.tex"⟩ (by rw [hdocs]; rfl)
    obtain ⟨-, hplaces, hlengths⟩ := documents_breadth_first hg
    obtain ⟨p, q, hp, hq, hiff⟩ := hplaces 3 4 c d (by decide) (by decide) hc hd
    exact ⟨g, c, d, rfl, hc, hd, hcpath, hdpath, ⟨p, q, hp, hq, hiff.mp (by decide)⟩,
      hlengths 3 4 c d (by decide) hc hd⟩

end Graph

end LatexIndex
