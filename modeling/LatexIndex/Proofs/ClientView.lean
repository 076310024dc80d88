/-
LatexIndex/Proofs/ClientView.lean

What a client holds while a project reports its diagnostics.

A client keeps for every URI the diagnostics that it received last, and never hears
of a report as a whole.  A project tells it of the files that have warnings and of
those that have none any more, and takes for the latter the files it has told of
before (`published`).  That these are at all times the files of which the client
holds something (`Tracks`) is kept by every call, whatever the order in which a call
sends its notices; so nothing of an earlier report is left behind.
-/
import LatexIndex.Proofs.Diagnostics
import LatexIndex.Proofs.FileUris

namespace LatexIndex

namespace Serving

open Server

variable {notices more : List Notice} {path : Path} {warnings : List Warning}
  {published : List Path} {n : Notice} {uri : String}

/-! ### What is received -/

/-- The diagnostics that a notice brings for a URI. -/
def broughtTo? (uri : String) : Notice → Option (List Diagnostic)
  | .log _ => none
  | .diagnostics path items => if Uri.ofPath path = uri then some items else none

/-- The diagnostics a client received last for a URI. -/
def received (notices : List Notice) (uri : String) : List Diagnostic :=
  (notices.filterMap (broughtTo? uri)).getLast?.getD []

/-- All diagnostics are about files at absolute paths. -/
def Addressed (notices : List Notice) : Prop :=
  ∀ p items, .diagnostics p items ∈ notices → p.isAbsolute = true

/-- What is received for the URI of a file is what is shown of the file. -/
theorem received_ofPath (h : Addressed notices) (hpath : path.isAbsolute = true) :
    received notices (Uri.ofPath path) = shown notices path := by
  have hnotice : ∀ n ∈ notices, broughtTo? (Uri.ofPath path) n = about? path n := by
    intro n hn
    cases n with
    | log message => rfl
    | diagnostics p items =>
        have huri := Uri.ofPath_eq_iff (h p items hn) hpath
        by_cases hsame : p.same path = true
        · rw [broughtTo?, about?, if_pos hsame, if_pos (huri.mpr hsame)]
        · rw [broughtTo?, about?, if_neg hsame, if_neg (mt huri.mp hsame)]
  rw [received, shown, List.filterMap_congr hnotice]

/-- Nothing is received for a URI that no file has. -/
theorem received_elsewhere (h : Addressed notices)
    (huri : ∀ path : Path, path.isAbsolute = true → Uri.ofPath path ≠ uri) :
    received notices uri = [] := by
  have hnone : notices.filterMap (broughtTo? uri) = [] := by
    refine List.filterMap_eq_nil_iff.mpr fun n hn => ?_
    cases n with
    | log message => rfl
    | diagnostics p items => exact if_neg (huri p (h p items hn))
  rw [received, hnone]
  rfl

/-! ### Calls -/

/-- What a project does about the diagnostics of its client. -/
inductive Call where
  /-- A report is published. -/
  | report (warnings : List Warning)
  /-- All that was published is cleared. -/
  | clear

/-- The files that have diagnostics after a call. -/
def Call.lists (before : List Path) : Call → List Path
  | report warnings => (publish before warnings).1
  | clear => []

/-- What a call sends. -/
def Call.sends (before : List Path) : Call → List Notice
  | report warnings => (publish before warnings).2
  | clear => unpublish before

/-- Calls one after the other, with the files that have diagnostics after them and
all that was sent.  A call may send its notices in any order. -/
inductive Calls : List Call → List Path → List Notice → Prop
  | none : Calls [] [] []
  | call {calls : List Call} {published : List Path} {notices sent : List Notice} (c : Call)
      (h : Calls calls published notices) (hsent : sent.Perm (c.sends published)) :
      Calls (calls ++ [c]) (c.lists published) (notices ++ sent)

/-- The files of `published` are those of which something is shown. -/
structure Tracks (published : List Path) (notices : List Notice) : Prop where
  absolute : ∀ p ∈ published, p.isAbsolute = true
  addressed : Addressed notices
  shown_iff : ∀ path : Path, path.isAbsolute = true →
    (shown notices path ≠ [] ↔ ∃ p ∈ published, p.same path = true)

/-! ### One call -/

/-- The files that have diagnostics after a report are those with warnings. -/
theorem exists_mem_publish_iff (hpath : path.isAbsolute = true) :
    (∃ p ∈ (publish published warnings).1, p.same path = true) ↔
      diagnosticsFor warnings path ≠ [] := by
  rw [← exists_mem_warnedFiles hpath]
  constructor
  · rintro ⟨p, hp, hsame⟩
    have hmem := Listing.mem_of_mem_distinctFrom hp
    rcases List.mem_append.mp hmem with hkept | htold
    · obtain ⟨w, hw, hwp⟩ := List.any_eq_true.mp (List.mem_filter.mp hkept).2
      exact ⟨w, hw, by rw [Path.same_iff, Path.same_iff.mp hwp, Path.same_iff.mp hsame]⟩
    · exact ⟨p, (List.mem_filter.mp htold).1, hsame⟩
  · rintro ⟨w, hw, hsame⟩
    have htold : w ∈ (warnedFiles warnings).filter Path.isAbsolute :=
      List.mem_filter.mpr ⟨hw, isAbsolute_of_same hsame hpath⟩
    obtain ⟨p, hp, hpw⟩ := Listing.exists_mem_distinct Path.same_refl
      (List.mem_append_right
        (published.filter fun path => (warnedFiles warnings).any (·.same path)) htold)
    exact ⟨p, hp, by rw [Path.same_iff, Path.same_iff.mp hpw, Path.same_iff.mp hsame]⟩

theorem isAbsolute_of_mem_publish (h : ∀ p ∈ published, p.isAbsolute = true) {p : Path}
    (hp : p ∈ (publish published warnings).1) : p.isAbsolute = true := by
  rcases List.mem_append.mp (Listing.mem_of_mem_distinctFrom hp) with hkept | htold
  · exact h p (List.mem_filter.mp hkept).1
  · exact (List.mem_filter.mp htold).2

theorem addressed_publish (h : ∀ p ∈ published, p.isAbsolute = true) :
    Addressed (publish published warnings).2 := by
  intro p items hn
  rcases mem_publish hn with ⟨q, hq, -, heq⟩ | ⟨q, -, habsolute, heq⟩
  · rw [(Notice.diagnostics.inj heq).1]
    exact h q hq
  · rw [(Notice.diagnostics.inj heq).1]
    exact habsolute

/-- Clearing what is published leaves nothing, if all of which something is shown
is published. -/
theorem shown_unpublish (hmore : ∀ n, n ∈ more ↔ n ∈ unpublish published)
    (hknown : shown notices path ≠ [] → ∃ p ∈ published, p.same path = true) :
    shown (notices ++ more) path = [] := by
  by_cases htold : ∃ n ∈ more, (about? path n).isSome = true
  · obtain ⟨n, hn, hshown⟩ :
        ∃ n ∈ more, about? path n = some (shown (notices ++ more) path) :=
      exists_about?_shown htold
    obtain ⟨p, -, rfl⟩ := List.mem_map.mp ((hmore n).mp hn)
    obtain ⟨q, heq, -⟩ := about?_eq_some.mp hshown
    exact (Notice.diagnostics.inj heq).2.symm
  · have hnone : ∀ n ∈ more, about? path n = none := by
      intro n hn
      rw [← Option.not_isSome_iff_eq_none]
      exact fun hsome => htold ⟨n, hn, hsome⟩
    rw [shown_append_of_none hnone]
    by_contra hne
    obtain ⟨p, hp, hsame⟩ := hknown hne
    refine htold ⟨.diagnostics p [], (hmore _).mpr (List.mem_map_of_mem hp), ?_⟩
    rw [about?, if_pos hsame]
    rfl

theorem Addressed.append (h : Addressed notices) (hmore : Addressed more) :
    Addressed (notices ++ more) := by
  intro p items hn
  rcases List.mem_append.mp hn with hn | hn
  · exact h p items hn
  · exact hmore p items hn

/-- What a call leaves of the diagnostics that the client holds. -/
def Call.leaves (path : Path) : Call → List Diagnostic
  | report warnings => diagnosticsFor warnings path
  | clear => []

/-- **A call settles what is shown of every file**, whatever was shown before. -/
theorem Tracks.shown_call (h : Tracks published notices) (c : Call) {sent : List Notice}
    (hsent : sent.Perm (c.sends published)) (hpath : path.isAbsolute = true) :
    shown (notices ++ sent) path = c.leaves path := by
  have hknown := (h.shown_iff path hpath).mp
  cases c with
  | report warnings => exact shown_publish hpath (fun n => hsent.mem_iff) hknown
  | clear => exact shown_unpublish (fun n => hsent.mem_iff) hknown

/-- Every call keeps track. -/
theorem Tracks.call (h : Tracks published notices) (c : Call) {sent : List Notice}
    (hsent : sent.Perm (c.sends published)) :
    Tracks (c.lists published) (notices ++ sent) := by
  have haddressed : Addressed (c.sends published) := by
    cases c with
    | report warnings => exact addressed_publish h.absolute
    | clear =>
        intro p items hn
        obtain ⟨q, hq, heq⟩ := List.mem_map.mp hn
        rw [← (Notice.diagnostics.inj heq).1]
        exact h.absolute q hq
  refine ⟨?_, h.addressed.append fun p items hn => haddressed p items (hsent.mem_iff.mp hn), ?_⟩
  · cases c with
    | report warnings => exact fun p hp => isAbsolute_of_mem_publish h.absolute hp
    | clear => exact nofun
  · intro path hpath
    rw [h.shown_call c hsent hpath]
    cases c with
    | report warnings => exact (exists_mem_publish_iff hpath).symm
    | clear => simp [Call.leaves, Call.lists]

/-! ### All calls -/

variable {calls : List Call}

theorem tracks_of_calls (h : Calls calls published notices) : Tracks published notices := by
  induction h with
  | none => exact ⟨nofun, nofun, fun path _ => by simp [shown]⟩
  | call c _ hsent ih => exact ih.call c hsent

/-- What the last call leaves. -/
theorem received_last {earlier : List Call} {c : Call}
    (h : Calls (earlier ++ [c]) published notices) (hpath : path.isAbsolute = true) :
    received notices (Uri.ofPath path) = c.leaves path := by
  rw [received_ofPath (tracks_of_calls h).addressed hpath]
  generalize hcalls : earlier ++ [c] = calls at h
  cases h with
  | none => simp at hcalls
  | call c' hbefore hsent =>
      obtain ⟨-, rfl⟩ := List.append_singleton_inj.mp hcalls
      exact (tracks_of_calls hbefore).shown_call c hsent hpath

/-- **What a client holds.**  After any calls, something is held for the URIs of the
files in `published` and for no others.  After a report, what is held for a file are
the diagnostics of all its warnings, in their order, so that nothing of an earlier
report is left; after clearing, nothing is held at all. -/
theorem client_holds_last_report (h : Calls calls published notices) :
    (∀ p ∈ published, p.isAbsolute = true) ∧
    (∀ uri, received notices uri ≠ [] ↔ ∃ p ∈ published, Uri.ofPath p = uri) ∧
    (∀ earlier warnings, calls = earlier ++ [.report warnings] →
      (∀ path : Path, path.isAbsolute = true →
        received notices (Uri.ofPath path) = diagnosticsFor warnings path) ∧
      ∀ uri, (∀ path : Path, path.isAbsolute = true → Uri.ofPath path ≠ uri) →
        received notices uri = []) ∧
    ∀ earlier, calls = earlier ++ [.clear] → ∀ uri, received notices uri = [] := by
  have htracks := tracks_of_calls h
  have helsewhere : ∀ uri, (∀ path : Path, path.isAbsolute = true → Uri.ofPath path ≠ uri) →
      received notices uri = [] :=
    fun uri => received_elsewhere htracks.addressed
  refine ⟨htracks.absolute, fun uri => ?_, ?_, ?_⟩
  · by_cases huri : ∃ path : Path, path.isAbsolute = true ∧ Uri.ofPath path = uri
    · obtain ⟨path, hpath, rfl⟩ := huri
      rw [received_ofPath htracks.addressed hpath, htracks.shown_iff path hpath]
      constructor
      · rintro ⟨p, hp, hsame⟩
        exact ⟨p, hp, (Uri.ofPath_eq_iff (htracks.absolute p hp) hpath).mpr hsame⟩
      · rintro ⟨p, hp, heq⟩
        exact ⟨p, hp, (Uri.ofPath_eq_iff (htracks.absolute p hp) hpath).mp heq⟩
    · have hnone : ∀ path : Path, path.isAbsolute = true → Uri.ofPath path ≠ uri :=
        fun path hpath heq => huri ⟨path, hpath, heq⟩
      refine iff_of_false (not_not_intro (helsewhere uri hnone)) ?_
      rintro ⟨p, hp, heq⟩
      exact hnone p (htracks.absolute p hp) heq
  · rintro earlier warnings rfl
    exact ⟨fun path hpath => received_last h hpath, helsewhere⟩
  · rintro earlier rfl uri
    by_cases huri : ∃ path : Path, path.isAbsolute = true ∧ Uri.ofPath path = uri
    · obtain ⟨path, hpath, rfl⟩ := huri
      exact received_last h hpath
    · exact helsewhere uri fun path hpath heq => huri ⟨path, hpath, heq⟩

/-- Warnings about two files, one of them written in two ways, and one about none. -/
def firstReport : List Warning :=
  [⟨.notFound, ⟨"/a"⟩, none, "x"⟩, ⟨.cycle, ⟨"/b"⟩, some 2, "y"⟩,
    ⟨.duplicateLabel, ⟨"/./a"⟩, some 1, "z"⟩, ⟨.notFound, ⟨""⟩, none, "w"⟩]

/-- Warnings about one of the two files and another one. -/
def secondReport : List Warning :=
  [⟨.unreadable, ⟨"/c"⟩, none, "u"⟩, ⟨.notFound, ⟨"/a"⟩, some 3, "v"⟩]

theorem client_holds_last_report_second : ∃ published notices,
    Calls [.report firstReport, .report secondReport] published notices ∧
    published = [⟨"/a"⟩, ⟨"/c"⟩] ∧
    received notices (Uri.ofPath ⟨"/a"⟩) = [⟨3, .warning, "v"⟩] ∧
    received notices (Uri.ofPath ⟨"/b"⟩) = [] ∧
    received notices (Uri.ofPath ⟨"/c"⟩) = [⟨0, .error, "u"⟩] := by
  have hcalls := Calls.call (.report secondReport)
    (.call (.report firstReport) .none (.refl _)) (.refl _)
  have hheld := ((client_holds_last_report hcalls).2.2.1 [.report firstReport] _ rfl).1
  exact ⟨_, _, hcalls, by decide, hheld ⟨"/a"⟩ rfl, hheld ⟨"/b"⟩ rfl, hheld ⟨"/c"⟩ rfl⟩

end Serving

end LatexIndex
