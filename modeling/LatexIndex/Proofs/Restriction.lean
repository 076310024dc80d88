/-
LatexIndex/Proofs/Restriction.lean

Resolving a key in some of the files of an index.

The files can be chosen before or after the key is looked up: an index can be
restricted to them, or the entries found in all files can be sorted out by
their paths.  Both come to the same where every entry has the path of its file
(`Index.Placed`), because a path is allowed or not whatever the way it is
written (`Allowed.congr`).

What a key resolves to is told without either: an entry counts if it has the
key, its path is allowed and no entry with the key before it has that path
(`Index.firstEntries`).  These entries stand one for one for the paths at which
the key is defined (`definedAt_iff`, `nodup_firstEntries`), also if a path has
several files, so their number tells the three outcomes apart.
-/
import LatexIndex.Proofs.Citations

namespace LatexIndex.Bib

open Listing

variable {index : Index} {key : String} {paths : List Path} {p q : Path}

/-! ### Paths that are allowed -/

/-- A path that is one of `paths`, however it is written; any path, if there
are none. -/
def Allowed (paths : List Path) (p : Path) : Prop :=
  paths = [] ∨ p.parts ∈ paths.map Path.parts

instance (paths : List Path) : DecidablePred (Allowed paths) :=
  fun _ => inferInstanceAs (Decidable (_ ∨ _))

theorem any_same_iff : paths.any (·.same p) = true ↔ p.parts ∈ paths.map Path.parts := by
  rw [List.any_eq_true, List.mem_map]
  exact exists_congr fun q => and_congr_right fun _ => Path.same_iff

theorem isEmpty_or_any_same_iff :
    (paths.isEmpty || paths.any (·.same p)) = true ↔ Allowed paths p := by
  rw [Bool.or_eq_true, List.isEmpty_iff, any_same_iff, Allowed]

theorem Allowed.congr (h : p.parts = q.parts) : Allowed paths p ↔ Allowed paths q := by
  rw [Allowed, Allowed, h]

namespace Index

/-! ### First entries -/

/-- The entries with the key whose path is allowed and is that of no entry with
the key before them, in index order. -/
def firstEntries (index : Index) (key : String) (paths : List Path) : List Entry :=
  ((withEarlier index.entries).filter fun x =>
    x.2.key = key ∧ Allowed paths x.2.path ∧
      ∀ e ∈ x.1, e.key = key → e.path.parts ≠ x.2.path.parts).map Prod.snd

/-- A path that is allowed and has an entry with the key. -/
def DefinedAt (index : Index) (key : String) (paths : List Path) (p : Path) : Prop :=
  Allowed paths p ∧ ∃ e ∈ index.entries, e.key = key ∧ e.path.parts = p.parts

/-- They are the first of the entries that have the key and are allowed. -/
theorem firstEntries_eq (index : Index) (key : String) (paths : List Path) :
    index.firstEntries key paths =
      firsts (·.path.parts) (index.entries.filter fun e => e.key = key ∧ Allowed paths e.path) := by
  rw [firsts_filter, firstEntries]
  congr 1
  refine List.filter_congr fun x _ => ?_
  rw [decide_eq_decide, decide_eq_true_iff, and_assoc]
  refine and_congr_right fun _ => and_congr_right fun hallowed => ?_
  simp only [List.mem_map, List.mem_filter, decide_eq_true_iff, not_exists, not_and]
  constructor
  · intro hnew e he hparts
    exact hnew e he.1 he.2.1 hparts
  · -- an earlier entry of the path of this one is allowed as well
    intro hnew e he hkey hparts
    exact hnew e ⟨he, hkey, (Allowed.congr hparts).mpr hallowed⟩ hparts

theorem nodup_firstEntries (index : Index) (key : String) (paths : List Path) :
    ((index.firstEntries key paths).map (·.path.parts)).Nodup := by
  rw [firstEntries_eq]
  exact nodup_map_firsts _ _

/-- The paths that define a key are those of its first entries. -/
theorem definedAt_iff :
    index.DefinedAt key paths p ↔ p.parts ∈ (index.firstEntries key paths).map (·.path.parts) := by
  rw [firstEntries_eq, mem_map_firsts]
  simp only [DefinedAt, List.mem_map, List.mem_filter, decide_eq_true_iff]
  constructor
  · rintro ⟨hallowed, e, he, hkey, hparts⟩
    exact ⟨e, ⟨he, hkey, (Allowed.congr hparts).mpr hallowed⟩, hparts⟩
  · rintro ⟨e, ⟨he, hkey, hallowed⟩, hparts⟩
    exact ⟨(Allowed.congr hparts).mp hallowed, e, he, hkey, hparts⟩

/-- **A key resolves to its first entries.** -/
theorem resolve_eq_firstEntries (index : Index) (key : String) (paths : List Path) :
    index.resolve key paths =
      .ofLocations ((index.firstEntries key paths).map fun e => ⟨e.path, e.line⟩) := by
  have hfilter : (index.lookup key).filter
      (fun e => paths.isEmpty || paths.any (·.same e.path)) =
      index.entries.filter fun e => e.key = key ∧ Allowed paths e.path := by
    rw [lookup, List.filter_filter]
    refine List.filter_congr fun e _ => ?_
    rw [Bool.eq_iff_iff, Bool.and_eq_true, isEmpty_or_any_same_iff, decide_eq_true_iff,
      decide_eq_true_iff, and_comm]
  rw [resolve, hfilter, distinct_eq_firsts fun a b : Entry => @Path.same_iff a.path b.path,
    firstEntries_eq]

end Index

/-! ### None, one and several -/

theorem Resolution.locations_ofLocations (locations : List Location) :
    (ofLocations locations).locations = locations := by
  rcases locations with - | ⟨a, - | ⟨b, more⟩⟩
  · rfl
  · rfl
  · rfl

namespace Index

theorem resolve_eq_notFound_iff :
    index.resolve key paths = .notFound ↔ ¬ ∃ p, index.DefinedAt key paths p := by
  rw [resolve_eq_firstEntries, Resolution.ofLocations_eq_notFound, List.map_eq_nil_iff]
  simp only [definedAt_iff, List.mem_map]
  constructor
  · rintro hnone ⟨p, e, he, -⟩
    rw [hnone] at he
    cases he
  · intro hnone
    exact List.eq_nil_iff_forall_not_mem.mpr fun e he => hnone ⟨e.path, e, he, rfl⟩

theorem exists_resolve_eq_ambiguous_iff :
    (∃ locations, index.resolve key paths = .ambiguous locations) ↔
      ∃ p q, index.DefinedAt key paths p ∧ index.DefinedAt key paths q ∧ p.parts ≠ q.parts := by
  have hnodup := index.nodup_firstEntries key paths
  simp only [resolve_eq_firstEntries, Resolution.ofLocations_eq_ambiguous, List.length_map,
    definedAt_iff]
  generalize index.firstEntries key paths = entries at hnodup ⊢
  rcases entries with - | ⟨a, - | ⟨b, more⟩⟩
  · simp
  · simp only [List.length_cons, List.length_nil, Nat.lt_irrefl, false_and, exists_false,
      List.map_cons, List.map_nil, List.mem_singleton, false_iff]
    rintro ⟨p, q, hp, hq, hne⟩
    exact hne (hp.trans hq.symm)
  · have hne : a.path.parts ≠ b.path.parts := by
      intro heq
      simp [heq] at hnodup
    exact ⟨fun _ => ⟨a.path, b.path, by simp, by simp, hne⟩, fun _ => ⟨_, by simp, rfl⟩⟩

/-- A key is found where it is defined at one path, because it is neither
defined nowhere nor at two of them. -/
theorem exists_resolve_eq_found_iff :
    (∃ location, index.resolve key paths = .found location) ↔
      ∃ p, index.DefinedAt key paths p ∧
        ∀ q, index.DefinedAt key paths q → q.parts = p.parts := by
  have hkind : (∃ location, index.resolve key paths = .found location) ↔
      ¬ index.resolve key paths = .notFound ∧
        ¬ ∃ locations, index.resolve key paths = .ambiguous locations := by
    rcases index.resolve key paths <;> simp
  rw [hkind, resolve_eq_notFound_iff, exists_resolve_eq_ambiguous_iff, not_not]
  constructor
  · rintro ⟨⟨p, hp⟩, hone⟩
    exact ⟨p, hp, fun q hq => by_contra fun hne => hone ⟨q, p, hq, hp, hne⟩⟩
  · rintro ⟨p, hp, hall⟩
    refine ⟨⟨p, hp⟩, ?_⟩
    rintro ⟨a, b, ha, hb, hne⟩
    exact hne ((hall a ha).trans (hall b hb).symm)

/-! ### Restricting the index -/

/-- Every entry has the path of its file, however the two are written. -/
def Placed (index : Index) : Prop :=
  ∀ file ∈ index.files, ∀ e ∈ file.entries, e.path.parts = file.path.parts

instance (index : Index) : Decidable index.Placed :=
  inferInstanceAs (Decidable (∀ file ∈ index.files, ∀ e ∈ file.entries, _ = _))

/-- The entries of the files that are kept are those whose own path is. -/
theorem Placed.entries_restrictedTo (h : index.Placed) (paths : List Path) :
    (index.restrictedTo paths).entries =
      index.entries.filter fun e => paths.any (·.same e.path) := by
  obtain ⟨files⟩ := index
  rw [entries, restrictedTo, entries]
  induction files with
  | nil => rfl
  | cons file more ih =>
      obtain ⟨hfile, hmore⟩ := List.forall_mem_cons.mp h
      have heach : ∀ e ∈ file.entries,
          paths.any (·.same e.path) = paths.any (·.same file.path) := by
        intro e he
        rw [Bool.eq_iff_iff, any_same_iff, any_same_iff, hfile e he]
      -- so the entries of a file are kept all or none
      rw [List.flatMap_cons, List.filter_append, ← ih hmore, List.filter_congr heach,
        List.filter_cons]
      split
      · next hkept => rw [List.flatMap_cons, List.filter_eq_self.mpr fun _ _ => hkept]
      · next hkept => rw [List.filter_eq_nil_iff.mpr fun _ _ => hkept, List.nil_append]

/-- A key resolves in a restricted index to what it resolves to among the paths
that are kept. -/
theorem Placed.resolve_restrictedTo (h : index.Placed) (key : String) (hpaths : paths ≠ []) :
    (index.restrictedTo paths).resolve key [] = index.resolve key paths := by
  have hempty : paths.isEmpty = false := List.isEmpty_eq_false_iff.mpr hpaths
  simp only [resolve, lookup, h.entries_restrictedTo, List.filter_filter, hempty, List.isEmpty_nil,
    Bool.true_or, Bool.true_and, Bool.false_or, Bool.and_comm]

/-- The paths that define a key are those of the files with an entry for it. -/
theorem Placed.definedAt_iff_file (h : index.Placed) :
    index.DefinedAt key paths p ↔
      ∃ file ∈ index.files, Allowed paths file.path ∧ file.path.parts = p.parts ∧
        ∃ e ∈ file.entries, e.key = key := by
  simp only [DefinedAt, entries, List.mem_flatMap]
  constructor
  · rintro ⟨hallowed, e, ⟨file, hfile, he⟩, hkey, hparts⟩
    have hpath : file.path.parts = p.parts := (h file hfile e he).symm.trans hparts
    exact ⟨file, hfile, (Allowed.congr hpath).mpr hallowed, hpath, e, he, hkey⟩
  · rintro ⟨file, hfile, hallowed, hpath, e, he, hkey⟩
    exact ⟨(Allowed.congr hpath).mp hallowed, e, ⟨file, hfile, he⟩, hkey,
      (h file hfile e he).trans hpath⟩

/-- **Restricting an index and resolving in it commute**, where every entry has
the path of its file.  In general a key resolves to its first entries, in index
order: of each path that is allowed, the first entry with the key.  It is not
found, found or ambiguous if there are no such paths, one or several, however
often a path is in the index and however it is written there; and where every
entry has the path of its file, these are the paths of the files. -/
theorem restricting_commutes_with_resolving (index : Index) (key : String) (paths : List Path) :
    (index.Placed → paths ≠ [] →
      index.resolve key paths = (index.restrictedTo paths).resolve key []) ∧
    (index.resolve key paths).locations =
      (index.firstEntries key paths).map (fun e => ⟨e.path, e.line⟩) ∧
    (index.resolve key paths = .notFound ↔ ¬ ∃ p, index.DefinedAt key paths p) ∧
    ((∃ location, index.resolve key paths = .found location) ↔
      ∃ p, index.DefinedAt key paths p ∧ ∀ q, index.DefinedAt key paths q → q.parts = p.parts) ∧
    ((∃ locations, index.resolve key paths = .ambiguous locations) ↔
      ∃ p q, index.DefinedAt key paths p ∧ index.DefinedAt key paths q ∧ p.parts ≠ q.parts) ∧
    (index.Placed → ∀ p, index.DefinedAt key paths p ↔
      ∃ file ∈ index.files, Allowed paths file.path ∧ file.path.parts = p.parts ∧
        ∃ e ∈ file.entries, e.key = key) := by
  refine ⟨fun h hpaths => (h.resolve_restrictedTo key hpaths).symm, ?_, resolve_eq_notFound_iff,
    exists_resolve_eq_found_iff, exists_resolve_eq_ambiguous_iff, fun h p => h.definedAt_iff_file⟩
  rw [resolve_eq_firstEntries, Resolution.locations_ofLocations]

/-- An index with one path in it twice, written in three ways. -/
def refiled : Index :=
  ⟨[⟨⟨"/p/a.bib"⟩, [⟨"k1", "book", ⟨"/p/a.bib"⟩, 4, none, none⟩,
        ⟨"k2", "book", ⟨"/p/a.bib"⟩, 9, none, none⟩]⟩,
    ⟨⟨"/p/b.bib"⟩, [⟨"k1", "misc", ⟨"/p/b.bib"⟩, 1, none, none⟩]⟩,
    ⟨⟨"/p//a.bib"⟩, [⟨"k1", "misc", ⟨"/p/a.bib/"⟩, 7, none, none⟩]⟩,
    ⟨⟨"/p/c.bib"⟩, [⟨"k1", "misc", ⟨"/p/c.bib"⟩, 2, none, none⟩]⟩]⟩

theorem restricting_commutes_with_resolving_refiled :
    refiled.Placed ∧ [Path.mk "/p/./b.bib", ⟨"/p/a.bib"⟩] ≠ [] ∧
    (refiled.restrictedTo [⟨"/p/./b.bib"⟩, ⟨"/p/a.bib"⟩]).resolve "k1" [] =
      .ambiguous [⟨⟨"/p/a.bib"⟩, 4⟩, ⟨⟨"/p/b.bib"⟩, 1⟩] := by
  have hplaced : refiled.Placed := by decide +kernel
  have hpaths : [Path.mk "/p/./b.bib", ⟨"/p/a.bib"⟩] ≠ [] := List.cons_ne_nil _ _
  obtain ⟨hcommute, -⟩ :=
    restricting_commutes_with_resolving refiled "k1" [⟨"/p/./b.bib"⟩, ⟨"/p/a.bib"⟩]
  refine ⟨hplaced, hpaths, (hcommute hplaced hpaths).symm.trans ?_⟩
  decide +kernel

end Index

end LatexIndex.Bib
