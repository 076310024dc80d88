/-
LatexIndex/Proofs/Climbing.lean

Where climbing to a master ends does not depend on where it begins.

Climbing follows a function, so the documents it passes are a tail that ends or
runs into a cycle.  A climb that ends by itself ends at the one document from
which nothing goes on; a climb that comes back to a document it has passed ends
at the smallest path that can be come back to (`Outcome`).  Neither mentions the
way there, so all documents on the way have one master (`Outcome.same`).

Main result: `master_same_along_climb`.  It does not hold of a path that is
longer than a system takes (`overlong_master_differs`): a buffer may be open
there, but the directory it is in cannot be listed under that text.
-/
import Mathlib.Data.List.Chain
import LatexIndex.Proofs.Container

namespace LatexIndex

open Relation

/-! ### Following a function -/

section

variable {α : Type*} {r : α → α → Prop} {a b m z w : α} {l : List α}

/-- In a list where each element leads to the one before it, all but the first
lead to one that is not the last. -/
theorem exists_before (h : (a :: l).IsChain fun newer older => r older newer) (hz : z ∈ l) :
    ∃ y ∈ (a :: l).dropLast, r z y := by
  induction l generalizing a with
  | nil => cases hz
  | cons b l ih =>
      rw [List.isChain_cons_cons] at h
      rcases List.mem_cons.mp hz with rfl | hz
      · exact ⟨a, by simp, h.1⟩
      · obtain ⟨y, hy, hzy⟩ := ih h.2 hz
        exact ⟨y, by rw [List.dropLast_cons_cons]; exact List.mem_cons_of_mem a hy, hzy⟩

/-- Around a cycle everything leads everywhere. -/
theorem transGen_around (h : (a :: l ++ [a]).IsChain fun newer older => r older newer) :
    TransGen r a a ∧ ∀ z ∈ l, TransGen r a z ∧ TransGen r z a := by
  have htrans : IsTrans α fun newer older => TransGen r older newer :=
    ⟨fun _ _ _ hab hbc => hbc.trans hab⟩
  have hpairwise := List.isChain_iff_pairwise.mp (h.imp fun _ _ => TransGen.single)
  rw [List.pairwise_append, List.pairwise_cons] at hpairwise
  obtain ⟨⟨hnewest, -⟩, -, holdest⟩ := hpairwise
  refine ⟨holdest a List.mem_cons_self a (List.mem_singleton_self a), fun z hz => ⟨?_, ?_⟩⟩
  · exact holdest z (List.mem_cons_of_mem a hz) a (List.mem_singleton_self a)
  · exact hnewest z hz

variable (hr : Relator.RightUnique r)

include hr

/-- Nothing leads away from a cycle. -/
theorem mem_of_around (h : (a :: l ++ [a]).IsChain fun newer older => r older newer)
    (hw : ReflTransGen r a w) : w ∈ a :: l := by
  induction hw with
  | refl => exact List.mem_cons_self
  | @tail z w _ hzw ih =>
      have hz : z ∈ l ++ [a] := by simpa [or_comm] using ih
      obtain ⟨y, hy, hzy⟩ := exists_before h hz
      have hy' : y ∈ (a :: l ++ [a]).dropLast := hy
      rw [List.dropLast_concat] at hy'
      rwa [hr hzw hzy]

/-- What can be come back to can be come back to from anywhere further on. -/
theorem reflTransGen_of_cycle (hm : TransGen r m m) (h : ReflTransGen r m b) :
    ReflTransGen r b m := by
  induction h with
  | refl => exact .refl
  | tail _ hbc ih =>
      rcases ih.cases_head with rfl | ⟨c', hbc', hc'⟩
      · obtain ⟨c', hmc', hc'⟩ := TransGen.head'_iff.mp hm
        rwa [hr hbc hmc']
      · rwa [hr hbc hbc']

/-- Every way onto a cycle leads all around it. -/
theorem reflTransGen_cycle (ham : ReflTransGen r a m) (hm : TransGen r m m)
    (hab : ReflTransGen r a b) : ReflTransGen r b m := by
  rcases ReflTransGen.total_of_right_unique hr hab ham with hbm | hmb
  · exact hbm
  · exact reflTransGen_of_cycle hr hm hmb

/-- Every way leads on to where nothing goes on. -/
theorem reflTransGen_end (ham : ReflTransGen r a m) (hm : ∀ c, ¬ r m c)
    (hab : ReflTransGen r a b) : ReflTransGen r b m := by
  rcases ReflTransGen.total_of_right_unique hr hab ham with hbm | hmb
  · exact hbm
  · rcases hmb.cases_head with rfl | ⟨c, hmc, -⟩
    · exact .refl
    · exact absurd hmc (hm c)

end

namespace Sources

variable {sources : Sources} {settings : Settings} {p q a b c current start result : Path}
  {passed : List Path} {d : Document}

/-! ### Where a climb ends -/

/-- How a climb from `start` ends: where nothing goes on, or at the smallest of
the paths that can be come back to. -/
inductive Outcome (sources : Sources) (settings : Settings) (start : Path) : Path → Prop
  | ended {result : Path} : ReflTransGen (sources.Passes settings) start result →
      (∀ c, ¬ sources.Passes settings result c) → Outcome sources settings start result
  | cycled {result m : Path} : ReflTransGen (sources.Passes settings) start result →
      ReflTransGen (sources.Passes settings) start m → TransGen (sources.Passes settings) m m →
      m.parts = result.parts →
      (∀ c, ReflTransGen (sources.Passes settings) start c →
        TransGen (sources.Passes settings) c c → result.le c = true) →
      Outcome sources settings start result

theorem Outcome.visited (h : sources.Outcome settings start result) :
    ReflTransGen (sources.Passes settings) start result := by
  cases h with
  | ended hvisited => exact hvisited
  | cycled hvisited => exact hvisited

/-- A document that can be come back to is not one where nothing goes on. -/
theorem not_cycle_of_end (hend : ∀ c, ¬ sources.Passes settings a c)
    (hb : TransGen (sources.Passes settings) b b) :
    ¬ ReflTransGen (sources.Passes settings) a b := by
  intro hab
  rcases hab.cases_head with rfl | ⟨c, hac, -⟩
  · obtain ⟨c, hac, -⟩ := TransGen.head'_iff.mp hb
    exact hend c hac
  · exact hend c hac

/-- **The end of a climb does not depend on where it begins.** -/
theorem Outcome.same (ha : sources.Outcome settings start a)
    (hc : ReflTransGen (sources.Passes settings) start c)
    (hb : sources.Outcome settings c b) : b.same a = true := by
  have hr := sources.passes_rightUnique settings
  cases ha with
  | ended hva hend =>
      cases hb with
      | ended hvb hend' =>
          -- from each end the other could be reached
          have hba := reflTransGen_end hr hva hend (hc.trans hvb)
          rcases hba.cases_head with rfl | ⟨c', hbc', -⟩
          · exact Path.same_refl _
          · exact absurd hbc' (hend' c')
      | cycled _ hvm hm _ _ =>
          exact absurd (reflTransGen_cycle hr (hc.trans hvm) hm hva) (not_cycle_of_end hend hm)
  | cycled _ hvm hm hma hmin =>
      cases hb with
      | ended hvb hend' =>
          exact absurd (reflTransGen_cycle hr hvm hm (hc.trans hvb)) (not_cycle_of_end hend' hm)
      | cycled _ hvm' hm' hmb hmin' =>
          have hab := hmin _ (hc.trans hvm') hm'
          have hba := hmin' _ (reflTransGen_cycle hr hvm hm hc) hm
          rw [Path.le_congr_right hmb] at hab
          rw [Path.le_congr_right hma] at hba
          exact (Path.same_iff_le _ _).mpr ⟨hba, hab⟩

/-! ### Coming back to a document -/

/-- The documents from the newest back to the one at `c`. -/
theorem cycleTo_eq {chain : List Path} (h : chain.any (·.same c) = true) :
    ∃ newer x older, chain = newer ++ x :: older ∧ x.parts = c.parts ∧
      cycleTo c chain = newer ++ [x] := by
  induction chain with
  | nil => cases h
  | cons p chain ih =>
      by_cases hp : p.same c = true
      · exact ⟨[], p, chain, rfl, Path.same_iff.mp hp, by simp [cycleTo, hp]⟩
      · obtain ⟨newer, x, older, hchain, hx, hcycle⟩ := ih (by simpa [hp] using h)
        exact ⟨p :: newer, x, older, by rw [hchain, List.cons_append], hx,
          by simp [cycleTo, hp, hcycle]⟩

/-- What is known of the documents a climb has passed, newest first. -/
structure Trail (sources : Sources) (settings : Settings) (start : Path) (chain : List Path) :
    Prop where
  reached : ∀ p ∈ chain, ReflTransGen (sources.Passes settings) start p
  met : ∀ p ∈ chain, sources.Met p
  linked : chain.IsChain fun newer older => sources.Passes settings older newer

theorem Trail.cons (hkeys : ∀ e ∈ sources.buffers, e.1.Spelled)
    (h : sources.Trail settings start (current :: passed))
    (hpass : sources.Passes settings current c) :
    sources.Trail settings start (c :: current :: passed) where
  reached := List.forall_mem_cons.mpr
    ⟨(h.reached current List.mem_cons_self).tail hpass, h.reached⟩
  met := List.forall_mem_cons.mpr ⟨met_of_ascends hkeys hpass.2, h.met⟩
  linked := List.isChain_cons_cons.mpr ⟨hpass, h.linked⟩

/-- Coming back to a document closes a cycle. -/
theorem Trail.around {newer older : List Path} {x : Path}
    (h : sources.Trail settings start (c :: (newer ++ x :: older))) (hx : x.parts = c.parts) :
    (c :: newer ++ [c]).IsChain fun newer older => sources.Passes settings older newer := by
  have hlinked : (c :: newer ++ [x]).IsChain fun newer older =>
      sources.Passes settings older newer := by
    have hlong : ((c :: newer ++ [x]) ++ older).IsChain fun newer older =>
        sources.Passes settings older newer := by simpa using h.linked
    exact hlong.left_of_append
  have hmetx := h.met x (by simp)
  have hmetc := h.met c List.mem_cons_self
  rw [List.isChain_append] at hlinked ⊢
  refine ⟨hlinked.1, List.isChain_singleton c, ?_⟩
  -- from `c` it goes on as it did from `x`
  intro y hy z hz
  obtain rfl : c = z := by simpa using hz
  exact (hlinked.2.2 y hy x rfl).congr hmetx hmetc hx

/-- A climb that comes back to a document it has passed ends at the smallest
path of the cycle. -/
theorem Trail.outcome_of_cycle {chain : List Path}
    (h : sources.Trail settings start (c :: chain)) (hany : chain.any (·.same c) = true) :
    sources.Outcome settings start ((Path.minimum? (cycleTo c chain)).getD current) := by
  have hr := sources.passes_rightUnique settings
  obtain ⟨newer, x, older, rfl, hx, hcycle⟩ := cycleTo_eq hany
  have haround := h.around hx
  have hreachc := h.reached c List.mem_cons_self
  obtain ⟨hself, hmutual⟩ := transGen_around haround
  obtain ⟨m, hm, hmin, hle⟩ := Path.exists_minimum? (l := newer ++ [x]) (by simp)
  rw [hcycle, hmin, Option.getD_some]
  have hminimal : ∀ w, ReflTransGen (sources.Passes settings) start w →
      TransGen (sources.Passes settings) w w → m.le w = true := by
    intro w hw hloop
    have hcw := reflTransGen_cycle hr hw hloop hreachc
    rcases List.mem_cons.mp (mem_of_around hr haround hcw) with rfl | hw'
    · rw [← Path.le_congr_right hx]
      exact hle x (by simp)
    · exact hle w (List.mem_append_left [x] hw')
  rcases List.mem_append.mp hm with hm | hm
  · have hvisited := h.reached m (by simp [hm])
    exact .cycled hvisited hvisited ((hmutual m hm).2.trans (hmutual m hm).1) rfl hminimal
  · obtain rfl := List.mem_singleton.mp hm
    exact .cycled (h.reached m (by simp)) hreachc hself hx.symm hminimal

/-- **Where a climb ends**: at the end of the way, or at the smallest path of
the cycle it runs into. -/
theorem Climbs.outcome (hkeys : ∀ e ∈ sources.buffers, e.1.Spelled)
    (h : sources.Climbs settings current passed result)
    (htrail : sources.Trail settings start (current :: passed))
    (hroot : sources.declaresRoot current = false) : sources.Outcome settings start result := by
  induction h with
  | top hc =>
      refine .ended (htrail.reached _ List.mem_cons_self) fun c hpass => ?_
      rw [hpass.2] at hc
      cases hc
  | cycle hc hany => exact (htrail.cons hkeys ⟨hroot, hc⟩).outcome_of_cycle hany
  | root hc _ hdeclares =>
      have hreached := (htrail.cons hkeys ⟨hroot, hc⟩).reached
      refine .ended (hreached _ List.mem_cons_self) fun c' hpass => ?_
      rw [hpass.1] at hdeclares
      cases hdeclares
  | step hc _ hdeclares _ ih =>
      exact ih (htrail.cons hkeys ⟨hroot, hc⟩) (Bool.not_eq_true _ ▸ hdeclares)

theorem outcome_climb (settings : Settings) (hkeys : ∀ e ∈ sources.buffers, e.1.Spelled)
    (hp : sources.Met p) (hroot : sources.declaresRoot p = false) :
    sources.Outcome settings p (sources.climb settings p) := by
  refine (climbs_climb sources settings p).outcome hkeys ?_ hroot
  exact ⟨by simp [ReflTransGen.refl], by simpa using hp, List.isChain_singleton p⟩

/-- A climb that can come back to a document ends at the smallest path of that
cycle. -/
theorem Outcome.least (h : sources.Outcome settings start result)
    (hc : ReflTransGen (sources.Passes settings) start c)
    (hloop : TransGen (sources.Passes settings) c c) :
    result.le c = true ∧
      ∃ m, TransGen (sources.Passes settings) c m ∧ m.same result = true := by
  have hr := sources.passes_rightUnique settings
  cases h with
  | ended hvisited hend =>
      exact absurd (reflTransGen_cycle hr hc hloop hvisited) (not_cycle_of_end hend hloop)
  | cycled _ hvm hm hparts hmin =>
      refine ⟨hmin c hc hloop, _, ?_, Path.same_iff.mpr hparts⟩
      exact hloop.trans_left (reflTransGen_cycle hr hvm hm hc)

/-! ### The master -/

theorem master_of_load (hs : settings.master = none) (hload : sources.load p = .ok d)
    (hmodeline : modelineMaster? d.scan settings.modelineLines = none) :
    sources.master settings p =
      .ok (if d.scan.declaresRoot then p else sources.climb settings p) := by
  rw [master, hs]
  simp only [hload, hmodeline]
  split <;> rfl

/-- **Every document on the way has the same master.**  Without a configured
master, from a document that can be read and has neither a document class nor a
modeline, climbing ends by itself; and every document that it passes or ends at
can be read and, unless it has a modeline of its own, has the same master.  If
the climb can come back to a document, the master is the smallest path of that
cycle.  The start and the open buffers have paths that are plainly written or
no longer than a system takes. -/
theorem master_same_along_climb (hs : settings.master = none)
    (hload : sources.load start = .ok d) (hroot : d.scan.declaresRoot = false)
    (hmodeline : modelineMaster? d.scan settings.modelineLines = none)
    (hstart : start.Spelled) (hkeys : ∀ e ∈ sources.buffers, e.1.Spelled) :
    ∃ result, sources.master settings start = .ok result ∧
      sources.Climbs settings start [] result ∧
      ReflTransGen (sources.Passes settings) start result ∧
      (∀ c, ReflTransGen (sources.Passes settings) start c →
        ∃ dc, sources.load c = .ok dc ∧
          (modelineMaster? dc.scan settings.modelineLines = none →
            ∃ r, sources.master settings c = .ok r ∧ r.same result = true)) ∧
      (∀ c, ReflTransGen (sources.Passes settings) start c →
        TransGen (sources.Passes settings) c c →
          result.le c = true ∧
            ∃ m, TransGen (sources.Passes settings) c m ∧ m.same result = true) := by
  have hmet : sources.Met start := ⟨hstart, d, hload⟩
  have houtcome := outcome_climb settings hkeys hmet ((declaresRoot_of_load hload).trans hroot)
  refine ⟨sources.climb settings start, ?_, climbs_climb sources settings start,
    houtcome.visited, fun c hc => ?_, fun c => houtcome.least⟩
  · rw [master_of_load hs hload hmodeline, if_neg (by simp [hroot])]
  · have hmetc := met_of_reflTransGen hkeys hmet hc
    obtain ⟨dc, hloadc⟩ := hmetc.2
    refine ⟨dc, hloadc, fun hnone => ⟨_, master_of_load hs hloadc hnone, ?_⟩⟩
    -- a document class ends the climb where it stands
    by_cases hdeclares : dc.scan.declaresRoot = true
    · rw [if_pos hdeclares]
      refine houtcome.same hc (.ended .refl ?_)
      rintro c' ⟨hfalse, -⟩
      rw [declaresRoot_of_load hloadc, hdeclares] at hfalse
      cases hfalse
    · rw [if_neg hdeclares]
      refine houtcome.same hc (outcome_climb settings hkeys hmetc ?_)
      rw [declaresRoot_of_load hloadc, ← Bool.not_eq_true]
      exact hdeclares

/-! ### Two documents that include each other -/

/-- Two open documents that include each other, and a file that includes one of
them. -/
def loopSources : Sources :=
  ⟨⟨[(["p", "0.tex"], .file "\\input{a}".toUTF8)], [], "/"⟩,
    [(⟨"/p/a.tex"⟩, ⟨"\\input{m}", 1⟩), (⟨"/p/m.tex"⟩, ⟨"\\input{a}", 1⟩)]⟩

/-- The search stays in the directory of a document. -/
def loopSettings : Settings :=
  { masterSearchDepth := 0 }

theorem loop_candidates :
    loopSources.candidates ⟨"/"⟩ 1 = [] ∧
    ∀ depth ∈ [1, 3], loopSources.candidates ⟨"/p"⟩ depth =
      [⟨"/p/0.tex"⟩, ⟨"/p/a.tex"⟩, ⟨"/p/m.tex"⟩] := by
  have hroot : loopSources.disk.lookUp ⟨"/"⟩ = .ok ([], .directory) := by decide +kernel
  have hp : loopSources.disk.lookUp ⟨"/p"⟩ = .ok (["p"], .directory) := by decide +kernel
  -- what is listed is in order already
  constructor
  · rw [candidates_eq, Disk.filesUnder, hroot]
    dsimp only
    rw [List.mergeSort_of_pairwise (by decide +kernel),
      Path.sorted_of_pairwise (by decide +kernel)]
    decide +kernel
  · intro depth hdepth
    simp only [List.mem_cons, List.not_mem_nil, or_false] at hdepth
    rcases hdepth with rfl | rfl <;>
    · rw [candidates_eq, Disk.filesUnder, hp]
      dsimp only
      rw [List.mergeSort_of_pairwise (by decide +kernel),
        Path.sorted_of_pairwise (by decide +kernel)]
      decide +kernel

theorem loop_searchRoot? {p directory : Path}
    (habove : p.directory.ancestors.take rootSearchLimit = [directory, ⟨"/"⟩])
    (hdirectory : loopSources.holdsRoot directory = false) :
    loopSources.searchRoot? loopSettings p = some (directory, 0) := by
  have hroot : loopSources.holdsRoot ⟨"/"⟩ = false := by
    rw [holdsRoot, loop_candidates.1]
    rfl
  have hnone : [directory, ⟨"/"⟩].findIdx? loopSources.holdsRoot = none := by
    rw [List.findIdx?_cons, hdirectory, List.findIdx?_cons, hroot]
    rfl
  rw [searchRoot?, habove, hnone]
  rfl

theorem loop_container? :
    loopSources.container? loopSettings ⟨"/p/m.tex"⟩ = some ⟨"/p/a.tex"⟩ ∧
    loopSources.container? loopSettings ⟨"/p/a.tex"⟩ = some ⟨"/p/0.tex"⟩ ∧
    loopSources.container? loopSettings ⟨"/p/0.tex"⟩ = none := by
  have hdirectory : loopSources.holdsRoot ⟨"/p"⟩ = false := by
    rw [holdsRoot, loop_candidates.2 1 (by decide)]
    decide +kernel
  refine ⟨?_, ?_, ?_⟩ <;>
  · rw [container?_of_searchRoot? (loop_searchRoot? (by decide +kernel) hdirectory),
      loop_candidates.2 _ (by decide)]
    decide +kernel

/-- From a document written with a slash too many. -/
theorem master_same_along_climb_loop :
    ∃ result, loopSources.master loopSettings ⟨"/p//m.tex"⟩ = .ok result ∧
      loopSources.Passes loopSettings ⟨"/p//m.tex"⟩ ⟨"/p/a.tex"⟩ ∧
      ∃ r, loopSources.master loopSettings ⟨"/p/a.tex"⟩ = .ok r ∧ r.same result = true := by
  obtain ⟨result, hmaster, -, -, hsame, -⟩ := master_same_along_climb
    (rfl : loopSettings.master = none) (rfl : loopSources.load ⟨"/p//m.tex"⟩ = .ok _)
    (by decide +kernel) (by decide +kernel) (by decide +kernel) (by decide +kernel)
  have hpass : loopSources.Passes loopSettings ⟨"/p//m.tex"⟩ ⟨"/p/a.tex"⟩ := by
    refine ⟨by decide +kernel, ?_⟩
    have hplain : loopSources.container? loopSettings ⟨"/p//m.tex"⟩
        = loopSources.container? loopSettings ⟨"/p/m.tex"⟩ :=
      container?_congr _ _ (by decide +kernel) (by decide +kernel) (by decide +kernel)
    exact hplain.trans loop_container?.1
  obtain ⟨d, hload, hd⟩ := hsame _ (.single hpass)
  refine ⟨result, hmaster, hpass, hd ?_⟩
  have hload' : loopSources.load ⟨"/p/a.tex"⟩ = .ok _ := rfl
  obtain rfl := Except.ok.inj (hload'.symm.trans hload)
  decide +kernel

/-- A buffer's path, written with more slashes than a system takes. -/
def overlong : Path :=
  Path.padded Disk.longestPath ["p", "a.tex"]

theorem overlong_named : Path.Named ["p", "a.tex"] := by
  unfold Path.Named Path.Inner
  decide

theorem overlong_parts : overlong.parts = (Path.mk "/p/a.tex").parts := by
  have hparts : (Path.padded Disk.longestPath (["p"] ++ ["a.tex"])).parts = _ :=
    Path.parts_padded Disk.longestPath overlong_named
  rw [overlong]
  exact hparts.trans (by decide)

theorem overlong_directory :
    overlong.directory.parts = (Path.mk "/p").parts ∧ ¬ overlong.directory.Short ∧
      overlong.directory.ancestors.take rootSearchLimit = [overlong.directory, ⟨"/"⟩] := by
  have hp : Path.Named ([] ++ ["p"]) := overlong_named.of_begins (by decide)
  have hdirectory : overlong.directory = Path.padded Disk.longestPath ["p"] :=
    Path.directory_padded _ overlong_named
  have hlong : ¬ (Path.padded Disk.longestPath ([] ++ ["p"])).Short :=
    Path.not_short_padded (Nat.le_refl _) hp
  refine ⟨?_, hdirectory ▸ hlong, ?_⟩
  · rw [Path.parts_directory_congr overlong_parts]
    decide
  · rw [hdirectory, Path.ancestors_padded _ hp]
    rfl

theorem overlong_candidates {depth : Nat} (h : depth ∈ [1, 3]) :
    loopSources.candidates overlong.directory depth = [⟨"/p/a.tex"⟩, ⟨"/p/m.tex"⟩] := by
  obtain ⟨hparts, hlong, -⟩ := overlong_directory
  obtain ⟨reason, hlook⟩ := loopSources.disk.exists_error_of_not_short hlong
  have hfiles : loopSources.disk.filesUnder overlong.directory depth = [] := by
    rw [Disk.filesUnder, hlook]
  have hbuffers : ∀ depth ∈ [1, 3],
      texFiles [] ++ loopSources.texBuffers ⟨"/p"⟩ depth = [⟨"/p/a.tex"⟩, ⟨"/p/m.tex"⟩] := by
    decide +kernel
  rw [candidates_eq, hfiles, texBuffers_congr _ hparts, hbuffers depth h,
    Path.sorted_of_pairwise (by decide +kernel)]
  decide +kernel

theorem overlong_container? :
    loopSources.container? loopSettings overlong = some ⟨"/p/m.tex"⟩ := by
  obtain ⟨hparts, -, habove⟩ := overlong_directory
  have hdirectory : loopSources.holdsRoot overlong.directory = false := by
    rw [holdsRoot, overlong_candidates (by decide)]
    decide +kernel
  have htest : (fun candidate : Path => !candidate.same overlong &&
        loopSources.containsPath overlong overlong.directory candidate)
      = fun candidate => !candidate.same ⟨"/p/a.tex"⟩ &&
        loopSources.containsPath ⟨"/p/a.tex"⟩ ⟨"/p"⟩ candidate := by
    funext candidate
    rw [containsPath_congr overlong_parts hparts, Path.same, Path.same, overlong_parts]
  rw [container?_of_searchRoot? (loop_searchRoot? habove hdirectory),
    overlong_candidates (by decide), htest]
  decide +kernel

/-- The climb from the overlong path does not see the file on disk, so it comes
back to where it began. -/
theorem overlong_climb : loopSources.climb loopSettings overlong = overlong := by
  have hm : (Path.mk "/p/m.tex").same ⟨"/p/a.tex"⟩ = false := by decide
  have hback : overlong.same ⟨"/p/a.tex"⟩ = true := Path.same_iff.mpr overlong_parts
  have hnew : overlong.same ⟨"/p/m.tex"⟩ = false := by
    rw [Path.same, overlong_parts]
    decide
  have hle : (Path.mk "/p/m.tex").le overlong = false := by
    rw [Path.le_congr_right overlong_parts]
    decide
  have hresult : (Path.minimum? (cycleTo ⟨"/p/a.tex"⟩ [⟨"/p/m.tex"⟩, overlong])).getD
      ⟨"/p/m.tex"⟩ = overlong := by
    simp [cycleTo, Path.minimum?, hm, hback, hle]
  have hclimbs : loopSources.Climbs loopSettings overlong [] _ :=
    .step overlong_container? (by simp [hnew]) (by decide +kernel)
      (.cycle loop_container?.1 (by simp [hback]))
  rw [hresult] at hclimbs
  exact (climbs_climb loopSources loopSettings overlong).unique hclimbs

/-- The climb from the other document does see it. -/
theorem loop_climb : loopSources.climb loopSettings ⟨"/p/m.tex"⟩ = ⟨"/p/0.tex"⟩ := by
  obtain ⟨hm, ha, hend⟩ := loop_container?
  have hclimbs : loopSources.Climbs loopSettings ⟨"/p/m.tex"⟩ [] ⟨"/p/0.tex"⟩ :=
    .step hm (by decide +kernel) (by decide +kernel)
      (.step ha (by decide +kernel) (by decide +kernel) (.top hend))
  exact (climbs_climb loopSources loopSettings ⟨"/p/m.tex"⟩).unique hclimbs

/-- A climb that begins at a path longer than a system takes passes a document
whose master is another one. -/
theorem overlong_master_differs :
    loopSettings.master = none ∧
    (∃ d, loopSources.load overlong = .ok d ∧ d.scan.declaresRoot = false ∧
      modelineMaster? d.scan loopSettings.modelineLines = none) ∧
    (∃ d, loopSources.load ⟨"/p/m.tex"⟩ = .ok d ∧
      modelineMaster? d.scan loopSettings.modelineLines = none) ∧
    loopSources.Passes loopSettings overlong ⟨"/p/m.tex"⟩ ∧
    loopSources.master loopSettings overlong = .ok overlong ∧
    loopSources.master loopSettings ⟨"/p/m.tex"⟩ = .ok ⟨"/p/0.tex"⟩ ∧
    (Path.mk "/p/0.tex").same overlong = false := by
  have hread : loopSources.read overlong = .ok ("\\input{m}", some 1) := by
    rw [read, find?_congr _ overlong_parts]
    rfl
  have hload : loopSources.load overlong = .ok ⟨overlong, some 1, Markup.scan "\\input{m}"⟩ := by
    rw [load, hread]
  have hroot : (Markup.scan "\\input{m}").declaresRoot = false := by decide +kernel
  have hmodeline : modelineMaster? (Markup.scan "\\input{m}") loopSettings.modelineLines
      = none := by decide +kernel
  have hloadm : loopSources.load ⟨"/p/m.tex"⟩ = .ok _ := rfl
  have hmodelinem : modelineMaster? (Markup.scan "\\input{a}") loopSettings.modelineLines
      = none := by decide +kernel
  refine ⟨rfl, ⟨_, hload, hroot, hmodeline⟩, ⟨_, hloadm, hmodelinem⟩,
    ⟨(declaresRoot_of_load hload).trans hroot, overlong_container?⟩, ?_, ?_, ?_⟩
  · rw [master_of_load rfl hload hmodeline, if_neg (by simp [hroot]), overlong_climb]
  · rw [master_of_load rfl hloadm hmodelinem, if_neg (by decide +kernel), loop_climb]
  · rw [Path.same, overlong_parts]
    decide

end Sources

end LatexIndex
