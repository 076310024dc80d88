/-
LatexIndex/Proofs/RelativePaths.lean

Ways from a directory to a file, and where they lead.

A way goes up out of the parts of the directory that are not above the file, and
then down (`exists_way`).  Taken from the directory, every `..` takes away one of
the parts to be left, so the way leads back to the file it was made for
(`normalize_join_relativeTo?`).  Both ends have to be *settled*, that is absolute
and normal; a directory of a settled path is settled again, and so is what is
found by going down from it.

A path that is continued by an ending leads elsewhere, whatever it ends in
(`normalize_append_ne`): the ending makes its last segment a name, and another one.
-/
import Mathlib.Data.List.Infix
import LatexIndex.Path.Relative
import LatexIndex.Proofs.FileNames
import LatexIndex.Proofs.SavedListing
import LatexIndex.Proofs.Spelling

namespace LatexIndex

open Text

theorem Text.intercalate_concat_append (sep : List Char) (init : List (List Char))
    (a b : List Char) :
    sep.intercalate (init ++ [a ++ b]) = sep.intercalate (init ++ [a]) ++ b := by
  induction init with
  | nil => simp
  | cons first init ih =>
      rcases init with - | ⟨second, init⟩
      · simp
      · simp only [List.cons_append, List.intercalate_cons_cons, List.append_assoc] at ih ⊢
        rw [ih]

namespace Path

variable {p q base : Path} {parts rest init common left way : List Part} {x : Part}
  {place : Place} {name n ending : String}

/-! ### Normal parts -/

theorem eq_of_segments (h : p.segments = q.segments) : p = q := by
  have htext : p.text.toList = q.text.toList := by
    rw [← intercalate_segments p, ← intercalate_segments q, h]
  exact congrArg Path.mk (String.toList_injective htext)

theorem IsNormal.concat (h : IsNormal parts) (hn : Inner (.name n)) :
    IsNormal (parts ++ [.name n]) := by
  obtain ⟨start, hstart, names, rfl, hnames⟩ := h
  refine ⟨start, hstart, names ++ [n], by simp, fun m hm => ?_⟩
  rcases List.mem_append.mp hm with hm | hm
  · exact hnames m hm
  · rwa [List.mem_singleton.mp hm]

/-- What normal parts begin with is normal. -/
theorem IsNormal.of_begins (h : IsNormal parts) (hc : common <+: parts) : IsNormal common := by
  obtain ⟨start, hstart, names, rfl, hnames⟩ := h
  obtain ⟨after, hafter⟩ := hc
  rcases List.append_eq_append_iff.mp hafter with ⟨more, hshort, -⟩ | ⟨more, rfl, hmore⟩
  · have hstarts : ∀ start ∈ ([[], [.up], [.root], [.root, .up]] : List (List Part)),
        ∀ c ∈ start.inits, c ∈ ([[], [.up], [.root], [.root, .up]] : List (List Part)) := by
      decide
    have hcommon : common ∈ start.inits := (List.mem_inits _ _).mpr ⟨more, hshort.symm⟩
    exact ⟨common, hstarts start hstart common hcommon, [], by simp, by simp⟩
  · obtain ⟨init, last, rfl, rfl, -⟩ := List.map_eq_append_iff.mp hmore
    exact ⟨start, hstart, init, rfl, fun n hn => hnames n (List.mem_append_left _ hn)⟩

theorem IsNormal.foldl_eq (h : IsNormal parts) : parts.foldl normalStep [] = parts.reverse := by
  rw [← List.reverse_reverse (parts.foldl normalStep [])]
  exact congrArg List.reverse h.normalParts_eq

/-- As many `..` as there are parts take them all away. -/
theorem foldl_normalStep_ups {above : List Part} (habove : above ≠ []) (left : List Part) :
    (List.replicate left.length Part.up).foldl normalStep (left ++ above) = above := by
  induction left with
  | nil => rfl
  | cons x left ih =>
      obtain ⟨y, more, hmore⟩ : ∃ y more, left ++ above = y :: more :=
        List.exists_cons_of_ne_nil (by simp [habove])
      have hstep : normalStep (x :: (left ++ above)) .up = left ++ above := by
        rw [hmore, normalStep]
        simp
      rw [List.length_cons, List.replicate_succ, List.foldl_cons, List.cons_append, hstep, ih]

/-! ### Settled paths -/

/-- Absolute and normal, as it is written. -/
def IsSettled (p : Path) : Prop :=
  p.isAbsolute = true ∧ p.normalize = p

instance (p : Path) : Decidable p.IsSettled :=
  inferInstanceAs (Decidable (_ ∧ _))

theorem isSettled_ofParts (h : IsNormal (.root :: rest)) : (ofParts (.root :: rest)).IsSettled := by
  constructor
  · rw [isAbsolute_iff_parts, h.parts_ofParts]
    rfl
  · rw [normalize, h.parts_ofParts, h.normalParts_eq]

theorem IsNormal.inner (h : IsNormal (.root :: rest)) (hx : x ∈ rest) : Inner x := by
  have hsettled := isSettled_ofParts h
  obtain ⟨more, hmore, hinner⟩ := inner_of_isAbsolute hsettled.1
  rw [h.parts_ofParts] at hmore
  obtain rfl := (List.cons.inj hmore).2
  exact hinner x hx

theorem IsSettled.exists_rest (h : p.IsSettled) :
    ∃ rest, p = ofParts (.root :: rest) ∧ p.parts = .root :: rest ∧ IsNormal (.root :: rest) := by
  obtain ⟨rest, hparts, -⟩ := inner_of_isAbsolute h.1
  have hnormal : IsNormal (.root :: rest) := by
    rw [← hparts, ← h.2, parts_normalize]
    exact isNormal_normalParts p
  refine ⟨rest, ?_, hparts, hnormal⟩
  rw [← hnormal.normalParts_eq, ← hparts]
  exact h.2.symm

/-- The root stays where it is. -/
theorem root_begins_normalParts (h : ∀ x ∈ rest, Inner x) :
    (normalParts (.root :: rest)).head? = some .root := by
  have hlast : ∀ (rest done : List Part), (∀ x ∈ rest, Inner x) → done.getLast? = some .root →
      (rest.foldl normalStep done).getLast? = some .root := by
    intro rest
    induction rest with
    | nil => exact fun done _ hdone => hdone
    | cons x rest ih =>
        intro done hinner hdone
        refine ih _ (fun y hy => hinner y (List.mem_cons_of_mem x hy)) ?_
        rcases (hinner x List.mem_cons_self).eq_up_or_name with rfl | ⟨n, rfl⟩
        · rcases done with - | ⟨y, - | ⟨z, done⟩⟩
          · cases hdone
          · obtain rfl := Option.some.inj hdone
            rfl
          · simpa [normalStep] using hdone
        · rcases done with - | ⟨y, done⟩
          · cases hdone
          · simpa [normalStep] using hdone
  rw [normalParts, List.head?_reverse, List.foldl_cons]
  exact hlast rest _ h rfl

/-- What an absolute path is normalised to is settled. -/
theorem isSettled_normalize (h : p.isAbsolute = true) : p.normalize.IsSettled := by
  obtain ⟨rest, hparts, hinner⟩ := inner_of_isAbsolute h
  refine ⟨?_, normalize_normalize p⟩
  rw [isAbsolute_iff_parts, parts_normalize, hparts]
  exact root_begins_normalParts hinner

/-- A name seen from an absolute path is an absolute path. -/
theorem isAbsolute_join (h : p.isAbsolute = true) (name : String) :
    (p.join name).isAbsolute = true := by
  have htext : ∀ more : String, (Path.mk (p.text ++ more)).isAbsolute = true := by
    intro more
    simp only [isAbsolute, beq_iff_eq] at h ⊢
    rw [String.toList_append, List.head?_append, h, Option.some_or]
  unfold join
  split
  · assumption
  · split
    · exact htext name
    · rw [String.append_assoc]
      exact htext _

/-! ### Above and below a settled path -/

/-- The segments of a settled path below the root. -/
theorem segments_of_isNormal (h : IsNormal (.root :: rest)) (hne : rest ≠ []) :
    (ofParts (.root :: rest)).segments = "" :: rest.map Part.text := by
  obtain ⟨x, rest, rfl⟩ := List.exists_cons_of_ne_nil hne
  exact segments_ofParts_root fun y hy => h.inner hy

/-- A slash at the end of a path leaves an idle segment there. -/
theorem slash_ne_last {init : List String} {last : String} (h : p.segments = init ++ [last])
    (hlast : isIdle last = false) : p.text.toList.getLast? ≠ some '/' := by
  intro hslash
  obtain ⟨before, hbefore⟩ := List.getLast?_eq_some_iff.mp hslash
  have hsplit : p = ⟨String.ofList before ++ "/" ++ ""⟩ :=
    congrArg Path.mk (String.toList_injective (by simp [hbefore]))
  have hempty : (Path.mk "").segments = [""] := rfl
  rw [hsplit, segments_slash, hempty] at h
  rw [← List.singleton_inj.mp (List.append_inj_right' h rfl)] at hlast
  cases hlast

theorem join_eq_ofParts (h : IsNormal (.root :: rest)) (hn : Inner (.name n)) :
    (ofParts (.root :: rest)).join n = ofParts (.root :: (rest ++ [.name n])) := by
  have hhead : (n.toList.head? == some '/') = false := by
    rw [← Bool.not_eq_true, beq_iff_eq]
    exact fun hslash => hn.2 (List.mem_of_mem_head? hslash)
  rw [join, hhead, if_neg Bool.false_ne_true]
  rcases List.eq_nil_or_concat' rest with rfl | ⟨init, x, rfl⟩
  · exact congrArg Path.mk (String.toList_injective (by simp [ofParts, Part.text]))
  · have hsegments := segments_of_isNormal h (by simp)
    have htext : (ofParts (.root :: (init ++ [x]))).text ≠ "" := by
      rw [Ne, ← segments_eq_singleton_iff, hsegments]
      simp
    have hsplit : (ofParts (.root :: (init ++ [x]))).segments
        = ("" :: init.map Part.text) ++ [x.text] := by
      rw [hsegments, List.map_append]
      rfl
    have hlast := slash_ne_last hsplit (h.inner (by simp)).not_idle
    have hconcat : IsNormal (.root :: (init ++ [x] ++ [.name n])) := h.concat hn
    rw [if_neg (by simp [htext, hlast])]
    apply eq_of_segments
    rw [segments_slash, hsegments, segments_of_inner hn, segments_of_isNormal hconcat (by simp)]
    simp [Part.text]

/-- What lies below a settled path is settled. -/
theorem IsSettled.foldl_join (h : p.IsSettled) (hplace : Named place) :
    (place.foldl join p).IsSettled := by
  induction place generalizing p with
  | nil => exact h
  | cons n place ih =>
      have hn := hplace n List.mem_cons_self
      obtain ⟨rest, rfl, -, hnormal⟩ := h.exists_rest
      refine ih ?_ fun m hm => hplace m (List.mem_cons_of_mem n hm)
      rw [join_eq_ofParts hnormal hn]
      exact isSettled_ofParts (hnormal.concat hn)

theorem trimIdle_map_text (h : ∀ x ∈ parts, Inner x) :
    trimIdle (parts.map Part.text) = parts.map Part.text := by
  rw [trimIdle_eq_rdropWhile, List.rdropWhile_eq_self_iff]
  intro hne
  rw [List.getLast_map]
  simp [(h _ (List.getLast_mem _)).not_idle]

theorem directory_eq_ofParts (h : IsNormal (.root :: (init ++ [x]))) :
    (ofParts (.root :: (init ++ [x]))).directory = ofParts (.root :: init) := by
  have hsegments := segments_of_isNormal h (by simp)
  have habsolute := (isSettled_ofParts h).1
  have hinit : IsNormal (.root :: init) := h.of_begins ⟨[x], rfl⟩
  have hhead : (ofParts (.root :: (init ++ [x]))).headLength = 1 := by
    rw [headLength, habsolute]
    rfl
  have hbody : (ofParts (.root :: (init ++ [x]))).body = (init ++ [x]).map Part.text := by
    rw [body, hhead, hsegments, List.drop_one, List.tail_cons, trimIdle_map_text fun y => h.inner]
  have hdrop : ((init ++ [x]).map Part.text).dropLast = init.map Part.text := by simp
  rw [directory, parent?, hbody, if_neg (by simp), Option.getD_some, hdrop,
    trimIdle_map_text fun y => hinit.inner, withBody, habsolute]
  rcases init with - | ⟨y, init⟩
  · rfl
  · rw [if_neg (by simp), hhead, hsegments]
    apply eq_of_segments
    rw [segments_of_isNormal hinit (List.cons_ne_nil y init)]
    apply segments_intercalate (by simp)
    intro s hs
    rcases List.mem_cons.mp hs with rfl | hs
    · decide
    · obtain ⟨z, hz, rfl⟩ := List.mem_map.mp hs
      exact (hinit.inner hz).2

/-- The directory of a settled path is settled. -/
theorem IsSettled.directory (h : p.IsSettled) : p.directory.IsSettled := by
  obtain ⟨rest, rfl, -, hnormal⟩ := h.exists_rest
  rcases List.eq_nil_or_concat' rest with rfl | ⟨init, x, rfl⟩
  · decide
  · rw [directory_eq_ofParts hnormal]
    exact isSettled_ofParts (hnormal.of_begins ⟨[x], rfl⟩)

/-! ### Ways -/

theorem dropCommon_eq (as bs : List Part) :
    ∃ common, as = common ++ (dropCommon as bs).1 ∧ bs = common ++ (dropCommon as bs).2 := by
  fun_induction dropCommon as bs with
  | case1 as b bs ih =>
      obtain ⟨common, has, hbs⟩ := ih
      exact ⟨b :: common, congrArg (b :: ·) has, congrArg (b :: ·) hbs⟩
  | case2 | case3 => exact ⟨[], rfl, rfl⟩

/-- Up through all that is to be left, and down. -/
theorem relativeParts_eq {down : List Part} (hhere : .here ∉ left)
    (h : relativeParts down left = some way) :
    way = List.replicate left.length .up ++ down := by
  fun_induction relativeParts down left generalizing way with
  | case1 down => exact (Option.some.inj h).symm
  | case2 x left ih =>
      obtain ⟨more, hmore, rfl⟩ := Option.map_eq_some_iff.mp h
      rw [ih (fun hmem => hhere (List.mem_cons_of_mem x hmem)) hmore]
      rfl
  | case3 => simp at hhere
  | case4 => cases h
  | case5 down x left =>
      obtain rfl := Option.some.inj h
      rw [List.map_const', List.length_cons, List.replicate_succ]

/-- There is a way out of names. -/
theorem exists_relativeParts (down : List Part) (hup : .up ∉ left) (hhere : .here ∉ left) :
    ∃ way, relativeParts down left = some way := by
  fun_induction relativeParts down left with
  | case1 down => exact ⟨down, rfl⟩
  | case2 x left ih =>
      obtain ⟨way, hway⟩ := ih (fun h => hup (List.mem_cons_of_mem x h))
        fun h => hhere (List.mem_cons_of_mem x h)
      exact ⟨.up :: way, by rw [hway, Option.map_some]⟩
  | case3 => simp at hhere
  | case4 => simp at hup
  | case5 down x left => exact ⟨_, rfl⟩

theorem Inner.ne_here (h : Inner x) : x ≠ .here := by
  rcases h.eq_up_or_name with rfl | ⟨n, rfl⟩ <;> simp

theorem Inner.ne_root (h : Inner x) : x ≠ .root := by
  rcases h.eq_up_or_name with rfl | ⟨n, rfl⟩ <;> simp

theorem Inner.wayText_eq (h : Inner x) : wayText x = x.text := by
  rcases h.eq_up_or_name with rfl | ⟨n, rfl⟩ <;> rfl

theorem inner_ups_append {down : List Part} (h : ∀ x ∈ down, Inner x) (k : Nat) :
    ∀ x ∈ List.replicate k Part.up ++ down, Inner x := by
  intro x hx
  rcases List.mem_append.mp hx with hx | hx
  · rw [List.eq_of_mem_replicate hx]
    exact inner_up
  · exact h x hx

/-- A way through inner parts is written the way a path is. -/
theorem relativeTo?_of_wayParts? (h : wayParts? p base = some way) (hway : ∀ x ∈ way, Inner x) :
    p.relativeTo? base = some (ofParts way).text := by
  have hhead : way.head? ≠ some .root := fun hroot =>
    (hway _ (List.mem_of_mem_head? hroot)).ne_root rfl
  have htext : way.map (wayText · |>.toList) = way.map (·.text.toList) :=
    List.map_congr_left fun x hx => by rw [(hway x hx).wayText_eq]
  rw [relativeTo?, h, Option.map_some, ofParts_of_head hhead, ← htext]
  rcases way with - | ⟨x, more⟩
  · rfl
  · have hshown : more.filter (· ≠ Part.here) = more := by
      rw [List.filter_eq_self]
      intro y hy
      exact decide_eq_true (hway y (List.mem_cons_of_mem x hy)).ne_here
    simp only [hshown]

theorem wayParts?_of_isAbsolute (hp : p.isAbsolute = true) (hb : base.isAbsolute = true)
    (hparts : p.parts = .root :: rest) (hbase : base.parts = .root :: init) :
    wayParts? p base = relativeParts (dropCommon rest init).1 (dropCommon rest init).2 := by
  rw [wayParts?, if_pos hp, if_pos hb, hparts, hbase, dropCommon, if_pos rfl]

/-- **A way goes up out of what is not above its end, and down.** -/
theorem exists_way (hp : p.IsSettled) (hb : base.IsSettled)
    (h : p.relativeTo? base = some name) :
    ∃ common left down, p.parts = .root :: (common ++ down) ∧
      base.parts = .root :: (common ++ left) ∧
      name = (ofParts (List.replicate left.length .up ++ down)).text := by
  obtain ⟨rest, -, hparts, hrest⟩ := hp.exists_rest
  obtain ⟨init, -, hbase, hinit⟩ := hb.exists_rest
  obtain ⟨common, hcommon, hleft⟩ := dropCommon_eq rest init
  have hway := wayParts?_of_isAbsolute hp.1 hb.1 hparts hbase
  obtain ⟨way, hsome⟩ : ∃ way, wayParts? p base = some way := by
    rw [relativeTo?, Option.map_eq_some_iff] at h
    exact ⟨_, h.choose_spec.1⟩
  have hhere : .here ∉ (dropCommon rest init).2 := by
    intro hmem
    have hmem' : .here ∈ init := hleft ▸ List.mem_append_right common hmem
    exact (hinit.inner hmem').ne_here rfl
  have hparts_way := relativeParts_eq hhere (hway.symm.trans hsome)
  have hinner : ∀ x ∈ way, Inner x := by
    rw [hparts_way]
    refine inner_ups_append (fun x hx => hrest.inner ?_) _
    exact hcommon ▸ List.mem_append_right common hx
  have hname := relativeTo?_of_wayParts? hsome hinner
  refine ⟨common, (dropCommon rest init).2, (dropCommon rest init).1, ?_, ?_, ?_⟩
  · rw [hparts, ← hcommon]
  · rw [hbase, ← hleft]
  · rw [← hparts_way]
    exact Option.some.inj (h.symm.trans hname)

/-- Every settled path has a way from a directory without `..`. -/
theorem exists_relativeTo? (hp : p.IsSettled) (hb : base.IsSettled) (hup : .up ∉ base.parts) :
    ∃ name, p.relativeTo? base = some name := by
  obtain ⟨rest, -, hparts, -⟩ := hp.exists_rest
  obtain ⟨init, -, hbase, hinit⟩ := hb.exists_rest
  obtain ⟨common, -, hleft⟩ := dropCommon_eq rest init
  have hsubset : ∀ x ∈ (dropCommon rest init).2, x ∈ init := by
    intro x hx
    rw [hleft]
    exact List.mem_append_right common hx
  obtain ⟨way, hway⟩ := exists_relativeParts (dropCommon rest init).1
    (fun h => hup (hbase ▸ List.mem_cons_of_mem _ (hsubset _ h)))
    fun h => (hinit.inner (hsubset _ h)).ne_here rfl
  rw [relativeTo?, wayParts?_of_isAbsolute hp.1 hb.1 hparts hbase, hway]
  exact ⟨_, rfl⟩

/-- A way through inner parts adds them to those of the directory. -/
theorem parts_join_way (hbase : base.parts ≠ []) (hway : ∀ x ∈ way, Inner x) :
    (base.join (ofParts way).text).parts = base.parts ++ way := by
  have hparts : (ofParts way).parts = way := parts_ofParts hway
  have habsolute : (ofParts way).isAbsolute = false := by
    rw [← Bool.not_eq_true, isAbsolute_iff_parts, hparts]
    exact fun hroot => (hway _ (List.mem_of_mem_head? hroot)).ne_root rfl
  rw [parts_join (fun hempty => hbase ((parts_eq_nil_iff base).mpr hempty)) habsolute,
    filterMap_segments, hparts, List.filter_eq_self.mpr]
  intro x hx
  exact decide_eq_true ⟨(hway x hx).ne_root, (hway x hx).ne_here⟩

/-- **Ways lead where they were made for.** -/
theorem normalize_join_relativeTo? (hp : p.IsSettled) (hb : base.IsSettled)
    (h : p.relativeTo? base = some name) : (base.join name).normalize = p := by
  obtain ⟨common, left, down, hparts, hbase, rfl⟩ := exists_way hp hb h
  obtain ⟨rest, -, hrest, hnormal⟩ := hp.exists_rest
  obtain ⟨init, -, hinit, hnormalBase⟩ := hb.exists_rest
  rw [← hrest, hparts] at hnormal
  rw [← hinit, hbase] at hnormalBase
  have hinner := inner_ups_append
    (fun x hx => hnormal.inner (List.mem_append_right common hx)) left.length
  have habove : IsNormal (.root :: common) := hnormal.of_begins ⟨down, rfl⟩
  -- up out of what is left, down again from what is common
  have hfold : (base.parts ++ (List.replicate left.length Part.up ++ down)).foldl normalStep []
      = (Part.root :: (common ++ down)).reverse := by
    calc _ = (List.replicate left.length Part.up ++ down).foldl normalStep
          (left.reverse ++ (.root :: common).reverse) := by
            rw [List.foldl_append, hbase, hnormalBase.foldl_eq, ← List.reverse_append,
              List.cons_append]
      _ = down.foldl normalStep (.root :: common).reverse := by
            rw [List.foldl_append, ← List.length_reverse, foldl_normalStep_ups (by simp)]
      _ = (.root :: (common ++ down)).reverse := by
            rw [← habove.foldl_eq, ← hnormal.foldl_eq, ← List.cons_append, List.foldl_append]
  calc (base.join (ofParts (List.replicate left.length .up ++ down)).text).normalize
      = ofParts (normalParts (base.parts ++ (List.replicate left.length .up ++ down))) := by
        rw [normalize, parts_join_way (by simp [hbase]) hinner]
    _ = ofParts p.parts := by rw [normalParts, hfold, List.reverse_reverse, hparts]
    _ = p.normalize := by rw [normalize, hparts, hnormal.normalParts_eq]
    _ = p := hp.2

/-- The text of a way ends in its last part. -/
theorem suffix_text_ofParts (h : ∀ y ∈ init ++ [x], Inner y) :
    x.text.toList <:+ (ofParts (init ++ [x])).text.toList := by
  have hhead : (init ++ [x]).head? ≠ some .root := fun hroot =>
    (h _ (List.mem_of_mem_head? hroot)).ne_root rfl
  rw [ofParts_of_head hhead, String.toList_ofList, List.map_append]
  have hwritten := Text.intercalate_concat_append ['/'] (init.map (·.text.toList)) [] x.text.toList
  rw [List.nil_append] at hwritten
  exact ⟨_, hwritten.symm⟩

/-! ### Continuing a path by an ending -/

theorem exists_segments_append (p : Path) (h : '/' ∉ ending.toList) :
    ∃ init last, p.segments = init ++ [last] ∧
      (Path.mk (p.text ++ ending)).segments = init ++ [last ++ ending] := by
  obtain ⟨init, last, htext, happend⟩ := splitOn_append h p.text.toList
  refine ⟨init.map String.ofList, String.ofList last, ?_, ?_⟩
  · rw [segments, htext, List.map_append, List.map_singleton]
  · have hlast : String.ofList (last ++ ending.toList) = String.ofList last ++ ending :=
      String.toList_injective (by simp)
    rw [segments, String.toList_append, happend, List.map_append, List.map_singleton, hlast]

/-- No segment does to the parts before it what a longer name does. -/
theorem normalParts_ne_concat {s : String} (hs : '/' ∉ s.toList) (hending : ending ≠ "")
    (parts : List Part) :
    normalParts (parts ++ (partOf? s).toList) ≠ normalParts parts ++ [.name (s ++ ending)] := by
  intro heq
  rcases hpart : partOf? s with - | x
  · have hlen := congrArg List.length heq
    simp [hpart] at hlen
  rw [hpart, Option.toList_some] at heq
  rcases (inner_of_partOf? hs hpart).eq_up_or_name with rfl | ⟨n, rfl⟩
  · -- `..` takes a part away, or stays itself
    rw [normalParts, normalParts, List.foldl_append, ← List.reverse_cons,
      List.reverse_inj] at heq
    rcases hdone : parts.foldl normalStep [] with - | ⟨y, - | ⟨z, done⟩⟩
    · simp [hdone, normalStep] at heq
    · cases y <;> simp [hdone, normalStep] at heq
    · have hlen := congrArg List.length heq
      simp [hdone, normalStep] at hlen
  · rw [normalParts_concat] at heq
    have hname := Part.name.inj (List.singleton_inj.mp (List.append_cancel_left heq))
    have hsn : n = s := text_of_partOf? hpart
    rw [hsn] at hname
    have hlen := congrArg String.length hname
    rw [String.length_append] at hlen
    exact hending (String.length_eq_zero_iff.mp (by omega))

/-- **A path that is continued by an ending leads elsewhere.** -/
theorem normalize_append_ne (h : IsEnding ending) (hp : p.isAbsolute = true) :
    (Path.mk (p.text ++ ending)).normalize ≠ p.normalize := by
  intro heq
  obtain ⟨init, last, hsegments, happend⟩ := exists_segments_append p h.slash
  have hinit : init ≠ [] := by
    rintro rfl
    exact ((isAbsolute_iff p).mp hp).2 (by rw [hsegments]; rfl)
  have hlead : leadOf (init ++ [last ++ ending]) = leadOf (init ++ [last]) :=
    leadOf_append hinit (by simp) (by simp)
  have hname : partOf? (last ++ ending) = some (.name (last ++ ending)) := by
    apply h.partOf?
    rw [String.toList_append]
    exact List.suffix_append _ _
  have hlast : '/' ∉ last.toList := slash_notMem_of_mem_segments (p := p) (by simp [hsegments])
  have hending : ending ≠ "" := by
    rintro rfl
    obtain ⟨c, hc, -⟩ := h.last
    cases hc
  have hparts := congrArg parts heq
  rw [parts_normalize, parts_normalize, parts_eq_partsOf, parts_eq_partsOf, happend, hsegments,
    partsOf, partsOf, hlead,
    List.filterMap_append, List.filterMap_append, List.filterMap_cons_some hname,
    List.filterMap_nil, ← List.append_assoc, ← List.append_assoc, normalParts_concat] at hparts
  refine normalParts_ne_concat hlast hending _ (Eq.trans ?_ hparts.symm)
  rcases hpart : partOf? last with - | x <;> simp [hpart]

theorem text_join_append (base : Path) (name : String) (h : '/' ∉ ending.toList) :
    (base.join (name ++ ending)).text = (base.join name).text ++ ending := by
  have hhead : ((name ++ ending).toList.head? == some '/') = (name.toList.head? == some '/') := by
    rw [String.toList_append, List.head?_append]
    rcases name.toList.head? with - | c
    · rw [Option.none_or, Bool.eq_iff_iff, beq_iff_eq, beq_iff_eq]
      exact iff_of_false (fun hslash => h (List.mem_of_mem_head? hslash)) (by simp)
    · rfl
  unfold join
  rw [hhead]
  split
  · rfl
  · split
    · exact String.append_assoc.symm
    · exact String.append_assoc.symm

end Path

end LatexIndex
