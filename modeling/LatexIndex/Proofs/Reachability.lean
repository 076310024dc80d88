/-
LatexIndex/Proofs/Reachability.lean

Deciding reachability in an include graph.

`Graph.connects` spreads a list of vertices along arcs, round after round, as
many rounds as there are arcs.  Here it is compared with the relation it stands
for, the reflexive and transitive closure of there being an arc, and so
`Graph.reaches` with that of `Graph.Includes`:

    g.reaches p q = true  ↔  Relation.ReflTransGen g.Includes p q

Soundness is an induction over the rounds.  Completeness is a count.  The
vertices never repeat, and they never leave a universe of one vertex more than
there are arcs: the start and the targets.  A round that adds nothing leaves
a closed list behind, and a list that grew in every round fills the universe,
so it is closed as well.
-/
import Mathlib.Data.List.Nodup
import Mathlib.Data.List.Perm.Subperm
import Mathlib.Logic.Relation
import LatexIndex.Project.Graph

namespace LatexIndex.Graph

open Relation

/-- The document at `p` has an edge to the document at `q`. -/
def Includes (g : Graph) (p q : Path) : Prop :=
  ∃ e ∈ g.edges, e.source = p ∧ e.target = q

section Arcs

variable {α : Type} {arcs : List (α × α)} {vertices : List α}

/-- No arc leads out of the vertices. -/
def Closed (arcs : List (α × α)) (vertices : List α) : Prop :=
  ∀ e ∈ arcs, e.1 ∈ vertices → e.2 ∈ vertices

theorem closed_reflTransGen (h : Closed arcs vertices) {p q : α} (hp : p ∈ vertices)
    (hpq : ReflTransGen (fun a b => (a, b) ∈ arcs) p q) : q ∈ vertices := by
  induction hpq with
  | refl => exact hp
  | tail _ hstep ih => exact h _ hstep ih

variable [DecidableEq α]

/-! ### One round -/

/-- A round only adds vertices, and it adds them at the end. -/
theorem prefix_spread (arcs : List (α × α)) (vertices : List α) :
    vertices <+: spread arcs vertices := by
  induction arcs generalizing vertices with
  | nil => exact List.prefix_rfl
  | cons e arcs ih =>
      simp only [spread, List.foldl_cons]
      split
      · exact (List.prefix_append vertices [e.2]).trans (ih _)
      · exact ih vertices

/-- A round takes every arc that starts at one of the vertices. -/
theorem target_mem_spread {e : α × α} (he : e ∈ arcs) (hs : e.1 ∈ vertices) :
    e.2 ∈ spread arcs vertices := by
  induction arcs generalizing vertices with
  | nil => cases he
  | cons f arcs ih =>
      simp only [spread, List.foldl_cons]
      rcases List.mem_cons.mp he with rfl | he
      · apply (prefix_spread arcs _).subset
        split
        · simp
        · simp_all
      · apply ih he
        split
        · exact List.mem_append_left _ hs
        · exact hs

/-- A round adds nothing that is there already. -/
theorem nodup_spread (h : vertices.Nodup) : (spread arcs vertices).Nodup := by
  induction arcs generalizing vertices with
  | nil => exact h
  | cons e arcs ih =>
      simp only [spread, List.foldl_cons]
      split
      · next hnew =>
          apply ih
          simp only [Bool.and_eq_true, decide_eq_true_eq] at hnew
          rw [← List.concat_eq_append]
          exact h.concat hnew.2
      · exact ih h

/-- What a round adds lies one arc further. -/
theorem spread_sound {r : α → α → Prop}
    (hr : ∀ e ∈ arcs, r e.1 e.2) {q : α} (hq : q ∈ spread arcs vertices) :
    ∃ p ∈ vertices, ReflTransGen r p q := by
  induction arcs generalizing vertices with
  | nil => exact ⟨q, hq, .refl⟩
  | cons e arcs ih =>
      simp only [spread, List.foldl_cons] at hq
      obtain ⟨p, hp, hpq⟩ := ih (fun f hf => hr f (List.mem_cons_of_mem e hf)) hq
      split at hp
      · next hnew =>
          simp only [Bool.and_eq_true, decide_eq_true_eq] at hnew
          rcases List.mem_append.mp hp with hp | hp
          · exact ⟨p, hp, hpq⟩
          · obtain rfl := List.mem_singleton.mp hp
            exact ⟨e.1, hnew.1, .head (hr e List.mem_cons_self) hpq⟩
      · exact ⟨p, hp, hpq⟩

/-- What a round adds is a target. -/
theorem spread_subset {q : α} (hq : q ∈ spread arcs vertices) :
    q ∈ vertices ∨ q ∈ arcs.map Prod.snd := by
  obtain ⟨p, hp, hpq⟩ := spread_sound (r := fun _ t => t ∈ arcs.map Prod.snd)
    (fun e he => List.mem_map_of_mem he) hq
  rcases ReflTransGen.cases_tail hpq with rfl | ⟨_, -, ht⟩
  · exact .inl hp
  · exact .inr ht

/-! ### Many rounds -/

theorem subset_spreadTimes (arcs : List (α × α)) (rounds : Nat) (vertices : List α) :
    vertices ⊆ spreadTimes arcs rounds vertices := by
  induction rounds generalizing vertices with
  | zero => exact List.Subset.refl vertices
  | succ rounds ih => exact List.Subset.trans (prefix_spread arcs vertices).subset (ih _)

theorem spreadTimes_sound {r : α → α → Prop}
    (hr : ∀ e ∈ arcs, r e.1 e.2) {rounds : Nat} {q : α}
    (hq : q ∈ spreadTimes arcs rounds vertices) : ∃ p ∈ vertices, ReflTransGen r p q := by
  induction rounds generalizing vertices with
  | zero => exact ⟨q, hq, .refl⟩
  | succ rounds ih =>
      obtain ⟨p, hp, hpq⟩ := ih hq
      obtain ⟨o, ho, hop⟩ := spread_sound hr hp
      exact ⟨o, ho, hop.trans hpq⟩

/-- After a round that adds nothing the vertices are closed. -/
theorem closed_of_spread_eq (h : spread arcs vertices = vertices) : Closed arcs vertices := by
  intro e he hs
  rw [← h]
  exact target_mem_spread he hs

theorem spreadTimes_of_spread_eq (h : spread arcs vertices = vertices) (rounds : Nat) :
    spreadTimes arcs rounds vertices = vertices := by
  induction rounds with
  | zero => rfl
  | succ rounds ih => rw [spreadTimes, h, ih]

/-- In a universe of vertices that no arc leaves, as many rounds as there are
vertices still to be met are enough. -/
theorem closed_spreadTimes (all : List α) (hall : ∀ e ∈ arcs, e.2 ∈ all)
    {rounds : Nat} (hnd : vertices.Nodup) (hsub : vertices ⊆ all)
    (hcount : all.length ≤ rounds + vertices.length) :
    Closed arcs (spreadTimes arcs rounds vertices) := by
  induction rounds generalizing vertices with
  | zero =>
      -- the vertices fill the universe
      have hperm : vertices.Perm all :=
        (List.subperm_of_subset hnd hsub).perm_of_length_le (by omega)
      intro e he _
      exact hperm.symm.subset (hall e he)
  | succ rounds ih =>
      by_cases hfix : spread arcs vertices = vertices
      · rw [spreadTimes_of_spread_eq hfix]
        exact closed_of_spread_eq hfix
      · -- a round that adds something leaves fewer vertices to be met
        have hpre := prefix_spread arcs vertices
        have hlt : vertices.length < (spread arcs vertices).length :=
          Nat.lt_of_le_of_ne hpre.length_le fun h => hfix (hpre.eq_of_length h).symm
        apply ih (nodup_spread hnd)
        · intro q hq
          rcases spread_subset hq with hq | hq
          · exact hsub hq
          · obtain ⟨e, he, rfl⟩ := List.mem_map.mp hq
            exact hall e he
        · omega

/-! ### Reachability -/

/-- **The rounds decide reachability**: `connects` holds exactly of the vertices
that some chain of arcs, perhaps an empty one, joins. -/
theorem connects_iff (arcs : List (α × α)) (p q : α) :
    connects arcs p q = true ↔ ReflTransGen (fun a b => (a, b) ∈ arcs) p q := by
  rw [connects, decide_eq_true_iff]
  constructor
  · intro hq
    obtain ⟨o, ho, hoq⟩ := spreadTimes_sound (r := fun a b => (a, b) ∈ arcs)
      (fun _ he => he) hq
    obtain rfl := List.mem_singleton.mp ho
    exact hoq
  · intro hpq
    have hclosed : Closed arcs (spreadTimes arcs arcs.length [p]) := by
      apply closed_spreadTimes (p :: arcs.map Prod.snd)
      · exact fun e he => List.mem_cons_of_mem p (List.mem_map_of_mem he)
      · exact List.nodup_singleton p
      · simp
      · simp
    have hp : p ∈ spreadTimes arcs arcs.length [p] :=
      subset_spreadTimes _ _ _ List.mem_cons_self
    exact closed_reflTransGen hclosed hp hpq

end Arcs

theorem reaches_iff (g : Graph) (p q : Path) :
    g.reaches p q = true ↔ ReflTransGen g.Includes p q := by
  have hincludes : (fun a b => (a, b) ∈ g.edges.map fun e => (e.source, e.target))
      = g.Includes := by
    funext a b
    simp [Includes]
  rw [reaches, connects_iff, hincludes]

end LatexIndex.Graph
