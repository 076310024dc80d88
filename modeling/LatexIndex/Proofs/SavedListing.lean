/-
LatexIndex/Proofs/SavedListing.lean

The documents below a directory, before and after the buffers were saved.

A search lists the files that are not hidden and the buffers, in the order of
their paths.  Both kinds are listed by plain paths (`mem_onDisk`,
`mem_buffered`), and after saving the buffers are among the files, so the
listing is the same (`candidates_save`) as long as no buffer is hidden.

A directory above something that can be read can be listed, or it is not there
yet and nothing is below it (`lists_of_has`).
-/
import LatexIndex.Project.Master
import LatexIndex.Proofs.PathOrder
import LatexIndex.Proofs.Saving

namespace LatexIndex

open Markup

/-! ### Names below a directory -/

/-- More pieces continue the text. -/
theorem Text.intercalate_begins {sep : List Char} {as bs : List (List Char)} (h : as <+: bs) :
    sep.intercalate as <+: sep.intercalate bs := by
  induction as generalizing bs with
  | nil => exact List.nil_prefix
  | cons a as ih =>
      obtain ⟨rest, rfl⟩ := h
      have htail := ih (List.prefix_append as rest)
      rcases as with - | ⟨b, as⟩
      · rcases rest with - | ⟨c, rest⟩
        · exact List.prefix_rfl
        · exact ⟨sep ++ sep.intercalate (c :: rest), by simp⟩
      · simp only [List.cons_append, List.intercalate_cons_cons] at htail ⊢
        exact (List.prefix_append_right_inj _).mpr htail

namespace Path

variable {p q : Path} {place : Place} {n : String}

theorem segments_of_inner (h : Inner (.name n)) : (Path.mk n).segments = [n] := by
  have hslash : ∀ s ∈ [n], '/' ∉ s.toList := by
    intro s hs
    rw [List.mem_singleton.mp hs]
    exact h.2
  have hsegments := segments_intercalate (List.cons_ne_nil n []) hslash
  simpa using hsegments

theorem parts_join_name (hp : p.parts ≠ []) (h : Inner (.name n)) :
    (p.join n).parts = p.parts ++ [.name n] := by
  have hslash : (n.toList.head? == some '/') = false := by
    rw [← Bool.not_eq_true, beq_iff_eq]
    intro hhead
    exact h.2 (List.mem_of_mem_head? hhead)
  have htext : p.text ≠ "" := fun hempty => hp ((parts_eq_nil_iff p).mpr hempty)
  have hpart : partOf? n = some (.name n) := h.1
  rw [parts_join htext hslash, segments_of_inner h, List.filterMap_cons_some hpart,
    List.filterMap_nil]

/-- Going down through names adds them to the parts. -/
theorem parts_foldl_join (hp : p.parts ≠ []) (h : Named place) :
    (place.foldl join p).parts = p.parts ++ place.map .name := by
  induction place generalizing p with
  | nil => simp
  | cons n place ih =>
      have hjoin := parts_join_name hp (h n List.mem_cons_self)
      have hne : (p.join n).parts ≠ [] := by simp [hjoin]
      rw [List.foldl_cons, ih hne fun m hm => h m (List.mem_cons_of_mem n hm), hjoin,
        List.append_assoc]
      rfl

theorem startsWith_pathOf {below : Place} (hp : Named place) (hb : Named below) :
    (Disk.pathOf below).startsWith (Disk.pathOf place) = true ↔ place <+: below := by
  rw [startsWith, parts_pathOf hp, parts_pathOf hb, List.isPrefixOf_iff_prefix,
    List.cons_prefix_cons]
  refine ⟨fun h => ?_, fun h => ⟨rfl, h.map _⟩⟩
  exact (List.prefix_map_iff_of_injective fun _ _ => Part.name.inj).mp h.2

theorem depthBelow?_pathOf {below : Place} (hp : Named place) (hb : Named below)
    (h : place <+: below) :
    (Disk.pathOf below).depthBelow? (Disk.pathOf place)
      = some (below.drop place.length).length := by
  rw [depthBelow?, if_pos ((startsWith_pathOf hp hb).mpr h), parts_pathOf hp, parts_pathOf hb]
  simp

/-- The directories a file is in are the plain paths of the places above. -/
theorem IsPlain.exists_of_mem_ancestors (hp : p.IsPlain) (hne : p.place ≠ [])
    (hq : q ∈ p.directory.ancestors) :
    ∃ r, r <+: p.place ∧ r ≠ p.place ∧ q = Disk.pathOf r := by
  obtain ⟨init, n, hplace⟩ := (List.eq_nil_or_concat' p.place).resolve_left hne
  have hn := hp.named
  rw [hplace] at hn ⊢
  have hdirectory : p.directory = Disk.pathOf init := by
    rw [hp.eq_pathOf, hplace, directory_pathOf hn]
  have hinit : init <+: init ++ [n] := List.prefix_append init [n]
  rw [hdirectory] at hq
  obtain ⟨r, hr, rfl⟩ := Path.exists_of_mem_ancestors (hn.of_begins hinit) hq
  refine ⟨r, hr.trans hinit, fun heq => ?_, rfl⟩
  have hlen := hr.length_le
  rw [heq, List.length_append, List.length_singleton] at hlen
  omega

end Path

/-! ### Listing -/

namespace Disk

variable {disk : Disk} {place above r q : Place} {buffers : Buffers} {bytes : ByteArray}

/-- There is an entry for a file at a place. -/
def HasFile (disk : Disk) (place : Place) : Prop :=
  ∃ bytes, (place, .file bytes) ∈ disk.entries

theorem hasFile_put : (disk.put place (.file bytes)).HasFile q ↔ place = q ∨ disk.HasFile q := by
  simp only [HasFile, put, List.mem_append, List.mem_filter, List.mem_singleton, Prod.mk.injEq]
  constructor
  · rintro ⟨found, ⟨hentry, -⟩ | ⟨rfl, -⟩⟩
    · exact .inr ⟨found, hentry⟩
    · exact .inl rfl
  · rintro (rfl | ⟨found, hentry⟩)
    · exact ⟨bytes, .inr ⟨rfl, rfl⟩⟩
    · by_cases hq : q = place
      · exact ⟨bytes, .inr ⟨hq, rfl⟩⟩
      · exact ⟨found, .inl ⟨hentry, by simpa using hq⟩⟩

/-- The files after saving are those before and the buffers. -/
theorem hasFile_save : (disk.save buffers).HasFile q ↔
    (∃ e ∈ buffers, e.1.place = q) ∨ disk.HasFile q := by
  induction buffers with
  | nil => simp [save]
  | cons e buffers ih =>
      show ((disk.save buffers).put e.1.place (.file e.2.text.toUTF8)).HasFile q ↔ _
      rw [hasFile_put, ih]
      simp [or_assoc]

/-- Entries are below places that are there. -/
theorem not_hasFile_of_node? (h : disk.node? above = none) (habove : above <+: q) :
    ¬ disk.HasFile q := by
  rintro ⟨bytes, hentry⟩
  have hany : disk.entries.any (above.isPrefixOf ·.1) = true :=
    List.any_eq_true.mpr ⟨_, hentry, List.isPrefixOf_iff_prefix.mpr habove⟩
  rw [node?] at h
  split at h
  · cases h
  · rw [hany] at h
    simp at h

/-- What is at most so many levels below a place and not hidden from there. -/
def Below (r : Place) (depth : Nat) (q : Place) : Prop :=
  r <+: q ∧ (q.drop r.length).length ≤ depth ∧ (q.drop r.length).any isHidden = false

/-- The plain path of a place can be listed: it is that of a directory, or
leads nowhere and there are no files below it. -/
def Lists (disk : Disk) (r : Place) : Prop :=
  disk.lookUp (pathOf r) = .ok (r, .directory) ∨
    (∃ reason, disk.lookUp (pathOf r) = .error reason) ∧ ∀ q, r <+: q → ¬ disk.HasFile q

theorem mem_filesUnder (h : disk.Lists r) {p : Path} {depth : Nat} :
    p ∈ disk.filesUnder (pathOf r) depth ↔ ∃ q, disk.HasFile q ∧ Below r depth q ∧
      p = (q.drop r.length).foldl Path.join (pathOf r) := by
  rw [filesUnder]
  rcases h with hlook | ⟨⟨reason, hlook⟩, hnone⟩
  · rw [hlook]
    simp only [List.mem_map, List.mem_mergeSort, List.mem_filterMap]
    constructor
    · rintro ⟨way, ⟨⟨other, node⟩, hentry, hway⟩, rfl⟩
      rcases node with bytes | -
      · simp only [Bool.and_eq_true, decide_eq_true_eq, Bool.not_eq_true',
          Option.ite_none_right_eq_some, Option.some.injEq, List.isPrefixOf_iff_prefix] at hway
        obtain ⟨⟨⟨hbelow, hdepth⟩, hvisible⟩, rfl⟩ := hway
        exact ⟨other, ⟨bytes, hentry⟩, ⟨hbelow, hdepth, hvisible⟩, rfl⟩
      · cases hway
    · rintro ⟨q, ⟨bytes, hentry⟩, ⟨hbelow, hdepth, hvisible⟩, rfl⟩
      refine ⟨q.drop r.length, ⟨(q, .file bytes), hentry, ?_⟩, rfl⟩
      simp only [Bool.and_eq_true, decide_eq_true_eq, Bool.not_eq_true',
        Option.ite_none_right_eq_some, List.isPrefixOf_iff_prefix]
      exact ⟨⟨⟨hbelow, hdepth⟩, hvisible⟩, trivial⟩
  · rw [hlook]
    constructor
    · intro hp
      cases hp
    · rintro ⟨q, hfile, hbelow, -⟩
      exact absurd hfile (hnone q hbelow.1)

/-- What is above a place that is not too long is not too long. -/
theorem Fits.of_begins (h : Fits place) (habove : above <+: place) (hne : above ≠ []) :
    Fits above := by
  obtain ⟨rest, rfl⟩ := habove
  have hplace : above ++ rest ≠ [] := by simp [hne]
  obtain ⟨more, hmore⟩ : (pathOf above).text.toList <+: (pathOf (above ++ rest)).text.toList := by
    rw [Path.pathOf_eq_intercalate hne, Path.pathOf_eq_intercalate hplace, String.toList_ofList,
      String.toList_ofList]
    apply Text.intercalate_begins
    simp
  have htext : (pathOf (above ++ rest)).text = (pathOf above).text ++ String.ofList more := by
    rw [← String.toList_inj, String.toList_append, String.toList_ofList, hmore]
  have hsize := h.path
  rw [htext, String.utf8ByteSize_append] at hsize
  refine ⟨fun hmem => h.ending ?_, by omega, fun n hn => h.names n (List.mem_append_left rest hn)⟩
  rw [← hmore]
  exact List.mem_append_left more hmem

/-- Above a file there are directories, and they can be listed. -/
theorem lists_of_isFile (hroot : disk.node? [] = some .directory) (hn : Path.Named place)
    (h : disk.isFile (pathOf place) = true) (hr : r <+: place) (hne : r ≠ place) :
    disk.Lists r := by
  obtain ⟨-, hfits, hway, -⟩ := (isFile_pathOf hn).mp h
  left
  by_cases hnil : r = []
  · rw [hnil]
    exact lookUp_pathOf_nil hroot
  · refine (lookUp_pathOf (hn.of_begins hr) hnil).mpr
      ⟨rfl, hfits.of_begins hr hnil, fun above habove habove_ne => ?_, hway r hr hne⟩
    refine hway above (habove.trans hr) fun heq => habove_ne ?_
    exact habove.eq_of_length_le (heq ▸ hr.length_le)

/-- Above a buffer there are directories, or they are not made yet. -/
theorem Savable.lists_of_mem (h : Savable disk buffers) {e : Path × Buffer} (he : e ∈ buffers)
    (hr : r <+: e.1.place) (hne : r ≠ e.1.place) : disk.Lists r := by
  have hn : Path.Named r := (h.direct e he).named.of_begins hr
  by_cases hnil : r = []
  · left
    rw [hnil]
    exact lookUp_pathOf_nil h.root
  rcases hnode : disk.node? r with - | (bytes | -)
  · right
    refine ⟨?_, fun q hq => not_hasFile_of_node? hnode hq⟩
    rcases hlook : disk.lookUp (pathOf r) with reason | ⟨q, node⟩
    · exact ⟨reason, rfl⟩
    · obtain ⟨-, -, -, hfound⟩ := (lookUp_pathOf hn hnil).mp hlook
      rw [hnode] at hfound
      cases hfound
  · exact absurd hnode (h.below e he r hr hne bytes)
  · left
    refine (lookUp_pathOf hn hnil).mpr
      ⟨rfl, (h.fits e he).of_begins hr hnil, fun above habove habove_ne => ?_, hnode⟩
    -- there is something above `r`, and it is no file
    have hsome := node?_above_ne_none (by rw [hnode]; simp) habove
    have hbelow := h.below e he above (habove.trans hr) fun heq =>
      habove_ne (habove.eq_of_length_le (heq ▸ hr.length_le))
    rcases hfound : disk.node? above with - | (bytes | -)
    · exact absurd hfound hsome
    · exact absurd hfound (hbelow bytes)
    · rfl

/-- What can be read is a file once it is saved. -/
theorem Savable.isFile_of_has (h : Savable disk buffers) {p : Path} (hp : p.IsPlain)
    (hhas : Sources.has ⟨disk, buffers⟩ p = true) :
    (disk.save buffers).isFile (pathOf p.place) = true := by
  rw [← hp.eq_pathOf]
  simpa [Sources.has] using ((Sources.mirrors_save h).has p hp).trans hhas

theorem Savable.place_ne_nil (h : Savable disk buffers) {p : Path} (hp : p.IsPlain)
    (hhas : Sources.has ⟨disk, buffers⟩ p = true) : p.place ≠ [] :=
  ((isFile_pathOf hp.named).mp (h.isFile_of_has hp hhas)).1

/-- **Above what can be read** listing works, before saving and after. -/
theorem Savable.lists_of_has (h : Savable disk buffers) {p : Path} (hp : p.IsPlain)
    (hhas : Sources.has ⟨disk, buffers⟩ p = true) (hr : r <+: p.place) (hne : r ≠ p.place) :
    disk.Lists r ∧ (disk.save buffers).Lists r := by
  have hroot : (disk.save buffers).node? [] = some .directory :=
    h.node?_save_of_directory h.root
  have hfile := h.isFile_of_has hp hhas
  refine ⟨?_, lists_of_isFile hroot hp.named hfile hr hne⟩
  rw [h.isFile_save hp.named] at hfile
  rcases hfile with hbuffer | hfile
  · obtain ⟨buffer, hb⟩ := Option.isSome_iff_exists.mp hbuffer
    obtain ⟨e, he, heq⟩ := exists_of_bufferAt? hb
    rw [← heq] at hr hne
    exact h.lists_of_mem he hr hne
  · exact lists_of_isFile h.root hp.named hfile hr hne

/-- A disk and buffers whose documents a listing shows: names mean nothing
else, and the paths of buffers are plain and not hidden. -/
structure Listable (disk : Disk) (buffers : Buffers) : Prop where
  names : ∀ e ∈ disk.entries, Path.Named e.1
  plain : ∀ e ∈ buffers, e.1.IsPlain
  visible : ∀ e ∈ buffers, ∀ n ∈ e.1.place, isHidden n = false

theorem Listable.named (h : Listable disk buffers) (hfile : disk.HasFile q) : Path.Named q := by
  obtain ⟨bytes, hentry⟩ := hfile
  exact h.names _ hentry

/-- The files of the saved disk have names as well. -/
theorem Listable.named_save (h : Listable disk buffers)
    (hfile : (disk.save buffers).HasFile q) : Path.Named q := by
  rcases hasFile_save.mp hfile with ⟨e, he, rfl⟩ | hfile
  · exact (h.plain e he).named
  · exact h.named hfile

end Disk

namespace Sources

open Disk

variable {disk : Disk} {buffers : Buffers} {r q : Place} {depth : Nat} {p : Path}

theorem isTex_congr {p q : Path} (h : p.parts = q.parts) : isTex p = isTex q := by
  simp only [isTex, Path.extension?, Path.fileName?, h]

/-- A file below a directory is listed under its plain path. -/
theorem normalize_foldl_join (hr : Path.Named r) (hq : Path.Named q) (h : r <+: q) :
    ((q.drop r.length).foldl Path.join (pathOf r)).parts = (pathOf q).parts ∧
      ((q.drop r.length).foldl Path.join (pathOf r)).normalize = pathOf q := by
  have hway : Path.Named (q.drop r.length) := fun n hn => hq n (List.mem_of_mem_drop hn)
  have hparts : ((q.drop r.length).foldl Path.join (pathOf r)).parts = (pathOf q).parts := by
    rw [Path.parts_foldl_join (by simp [Path.parts_pathOf hr]) hway, Path.parts_pathOf hr,
      Path.parts_pathOf hq, List.cons_append, ← List.map_append]
    nth_rewrite 1 [List.prefix_iff_eq_take.mp h]
    rw [List.take_append_drop]
  refine ⟨hparts, ?_⟩
  rw [Path.normalize_congr hparts, (Path.isPlain_pathOf hq).2]

/-- The files that a search finds below a directory. -/
theorem mem_onDisk (hnames : ∀ q, disk.HasFile q → Path.Named q) (hr : Path.Named r)
    (h : disk.Lists r) :
    p ∈ ((disk.filesUnder (pathOf r) depth).filter isTex).map Path.normalize ↔
      ∃ q, disk.HasFile q ∧ Below r depth q ∧ isTex (pathOf q) = true ∧ p = pathOf q := by
  simp only [List.mem_map, List.mem_filter, mem_filesUnder h]
  constructor
  · rintro ⟨x, ⟨⟨q, hfile, hbelow, rfl⟩, htex⟩, rfl⟩
    obtain ⟨hparts, hnormal⟩ := normalize_foldl_join hr (hnames q hfile) hbelow.1
    exact ⟨q, hfile, hbelow, by rwa [← isTex_congr hparts], hnormal⟩
  · rintro ⟨q, hfile, hbelow, htex, rfl⟩
    obtain ⟨hparts, hnormal⟩ := normalize_foldl_join hr (hnames q hfile) hbelow.1
    exact ⟨_, ⟨⟨q, hfile, hbelow, rfl⟩, by rwa [isTex_congr hparts]⟩, hnormal⟩

/-- The buffers that a search finds below a directory. -/
theorem mem_buffered (hl : Listable disk buffers) (hr : Path.Named r) :
    (p ∈ (buffers.map (·.1)).filter fun path =>
      isTex path && match path.depthBelow? (pathOf r) with
        | some below => below ≤ depth
        | none => false) ↔
      ∃ e ∈ buffers, Below r depth e.1.place ∧ isTex (pathOf e.1.place) = true ∧
        p = pathOf e.1.place := by
  have hfound : ∀ e ∈ buffers, (isTex e.1 && match e.1.depthBelow? (pathOf r) with
        | some below => below ≤ depth
        | none => false) = true ↔
      Below r depth e.1.place ∧ isTex (pathOf e.1.place) = true := by
    intro e he
    have hplain := hl.plain e he
    have hvisible : (e.1.place.drop r.length).any isHidden = false := by
      rw [List.any_eq_false]
      intro n hn
      rw [hl.visible e he n (List.mem_of_mem_drop hn)]
      exact Bool.false_ne_true
    rw [Bool.and_eq_true, and_comm, ← hplain.eq_pathOf]
    refine and_congr_left fun _ => ?_
    by_cases hbelow : r <+: e.1.place
    · have hdepth := Path.depthBelow?_pathOf hr hplain.named hbelow
      rw [← hplain.eq_pathOf] at hdepth
      rw [hdepth]
      simp [Below, hbelow, hvisible]
    · have hstarts : e.1.startsWith (pathOf r) = false := by
        rw [← Bool.not_eq_true, hplain.eq_pathOf, Path.startsWith_pathOf hr hplain.named]
        exact hbelow
      rw [Path.depthBelow?, hstarts]
      simp [Below, hbelow]
  rw [List.mem_filter, List.mem_map]
  constructor
  · rintro ⟨⟨e, he, rfl⟩, hkept⟩
    obtain ⟨hbelow, htex⟩ := (hfound e he).mp hkept
    exact ⟨e, he, hbelow, htex, (hl.plain e he).eq_pathOf⟩
  · rintro ⟨e, he, hbelow, htex, rfl⟩
    rw [← (hl.plain e he).eq_pathOf]
    exact ⟨⟨e, he, rfl⟩, (hfound e he).mpr ⟨hbelow, htex⟩⟩

/-- The documents that a search may find. -/
theorem isPlain_of_mem_listing (hl : Listable disk buffers) (hr : Path.Named r)
    (h : disk.Lists r) (hp : p ∈ Sources.candidates ⟨disk, buffers⟩ (pathOf r) depth) :
    p.IsPlain := by
  rcases List.mem_append.mp (Path.mem_of_mem_sorted hp) with hp | hp
  · obtain ⟨q, hfile, -, -, rfl⟩ := (mem_onDisk (fun _ => hl.named) hr h).mp hp
    exact Path.isPlain_pathOf (hl.named hfile)
  · obtain ⟨e, he, -, -, rfl⟩ := (mem_buffered hl hr).mp hp
    exact Path.isPlain_pathOf (hl.plain e he).named

/-- **Listings after saving**: the buffers are listed as the files they
became. -/
theorem candidates_save (hl : Listable disk buffers) (hr : Path.Named r) (h : disk.Lists r)
    (hsaved : (disk.save buffers).Lists r) :
    Sources.candidates ⟨disk.save buffers, []⟩ (pathOf r) depth
      = Sources.candidates ⟨disk, buffers⟩ (pathOf r) depth := by
  have hmem : ∀ p, p ∈ (((disk.save buffers).filesUnder (pathOf r) depth).filter isTex).map
        Path.normalize ↔
      p ∈ ((disk.filesUnder (pathOf r) depth).filter isTex).map Path.normalize ++
        (buffers.map (·.1)).filter fun path =>
          isTex path && match path.depthBelow? (pathOf r) with
            | some below => below ≤ depth
            | none => false := by
    intro p
    rw [List.mem_append, mem_onDisk (fun _ => hl.named_save) hr hsaved,
      mem_onDisk (fun _ => hl.named) hr h, mem_buffered hl hr]
    simp only [hasFile_save]
    constructor
    · rintro ⟨q, ⟨e, he, rfl⟩ | hfile, hrest⟩
      · exact .inr ⟨e, he, hrest⟩
      · exact .inl ⟨q, hfile, hrest⟩
    · rintro (⟨q, hfile, hrest⟩ | ⟨e, he, hrest⟩)
      · exact ⟨q, .inr hfile, hrest⟩
      · exact ⟨e.1.place, .inl ⟨e, he, rfl⟩, hrest⟩
  have hplain : ∀ p ∈ (((disk.save buffers).filesUnder (pathOf r) depth).filter isTex).map
      Path.normalize, p.IsPlain := by
    intro p hp
    obtain ⟨q, hfile, -, -, rfl⟩ := (mem_onDisk (fun _ => hl.named_save) hr hsaved).mp hp
    exact Path.isPlain_pathOf (hl.named_save hfile)
  rw [Sources.candidates, Sources.candidates, List.map_nil, List.filter_nil, List.append_nil]
  exact Path.sorted_eq_of_mem_iff hplain (fun p hp => hplain p ((hmem p).mpr hp)) hmem

end Sources

end LatexIndex
