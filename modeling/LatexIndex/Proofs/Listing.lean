/-
LatexIndex/Proofs/Listing.lean

What lists keep when nothing is to be said twice in them.
-/
import LatexIndex.Listing

namespace LatexIndex.Listing

variable {α : Type} {same : α → α → Bool}

/-! ### Each once -/

theorem mem_of_mem_distinctFrom {seen l : List α} {a : α} (h : a ∈ distinctFrom same seen l) :
    a ∈ l := by
  induction l generalizing seen with
  | nil => cases h
  | cons b l ih =>
      rw [distinctFrom] at h
      split at h
      · exact List.mem_cons_of_mem b (ih h)
      · rcases List.mem_cons.mp h with rfl | h
        · exact List.mem_cons_self
        · exact List.mem_cons_of_mem b (ih h)

/-- What is left out was seen. -/
theorem exists_mem_distinctFrom {seen l : List α} {a : α} (hrefl : ∀ a, same a a = true)
    (h : a ∈ l) : (∃ b ∈ seen, same b a = true) ∨ ∃ b ∈ distinctFrom same seen l, same b a = true := by
  induction l generalizing seen with
  | nil => cases h
  | cons c l ih =>
      rw [distinctFrom]
      split
      · next hseen =>
          rcases List.mem_cons.mp h with rfl | h
          · exact .inl (List.any_eq_true.mp hseen)
          · exact ih h
      · rcases List.mem_cons.mp h with rfl | h
        · exact .inr ⟨a, List.mem_cons_self, hrefl a⟩
        · rcases @ih (c :: seen) h with ⟨b, hb, hsame⟩ | ⟨b, hb, hsame⟩
          · rcases List.mem_cons.mp hb with rfl | hb
            · exact .inr ⟨b, List.mem_cons_self, hsame⟩
            · exact .inl ⟨b, hb, hsame⟩
          · exact .inr ⟨b, List.mem_cons_of_mem c hb, hsame⟩

theorem exists_mem_distinct {l : List α} {a : α} (hrefl : ∀ a, same a a = true) (h : a ∈ l) :
    ∃ b ∈ distinct same l, same b a = true := by
  rcases @exists_mem_distinctFrom α same [] l a hrefl h with ⟨b, hb, -⟩ | hb
  · cases hb
  · exact hb

/-- What is kept is neither seen before nor kept twice. -/
theorem pairwise_distinctFrom {seen l : List α} :
    (distinctFrom same seen l).Pairwise (fun a b => same a b = false) ∧
      ∀ s ∈ seen, ∀ a ∈ distinctFrom same seen l, same s a = false := by
  induction l generalizing seen with
  | nil => exact ⟨.nil, fun _ _ _ ha => absurd ha List.not_mem_nil⟩
  | cons b l ih =>
      rw [distinctFrom]
      split
      · exact ih
      · next hseen =>
          obtain ⟨hpairwise, hnew⟩ := @ih (b :: seen)
          refine ⟨List.pairwise_cons.mpr ⟨hnew b List.mem_cons_self, hpairwise⟩, ?_⟩
          intro s hs a ha
          rcases List.mem_cons.mp ha with rfl | ha
          · rw [List.any_eq_true] at hseen
            exact Bool.eq_false_iff.mpr fun hsame => hseen ⟨s, hs, hsame⟩
          · exact hnew s (List.mem_cons_of_mem b hs) a ha

theorem pairwise_distinct (l : List α) :
    (distinct same l).Pairwise fun a b => same a b = false :=
  pairwise_distinctFrom.1

/-- Where nothing is said twice, all is kept. -/
theorem distinctFrom_of_pairwise {seen l : List α}
    (hseen : ∀ s ∈ seen, ∀ a ∈ l, same s a = false)
    (h : l.Pairwise fun a b => same a b = false) : distinctFrom same seen l = l := by
  induction l generalizing seen with
  | nil => rfl
  | cons b l ih =>
      obtain ⟨hb, hl⟩ := List.pairwise_cons.mp h
      have hnew : ¬ seen.any (same · b) = true := by
        rw [List.any_eq_true]
        rintro ⟨s, hs, hsame⟩
        rw [hseen s hs b List.mem_cons_self] at hsame
        cases hsame
      rw [distinctFrom, if_neg hnew]
      congr 1
      refine ih (fun s hs a ha => ?_) hl
      rcases List.mem_cons.mp hs with rfl | hs
      · exact hb a ha
      · exact hseen s hs a (List.mem_cons_of_mem b ha)

theorem distinct_of_pairwise {l : List α} (h : l.Pairwise fun a b => same a b = false) :
    distinct same l = l :=
  distinctFrom_of_pairwise (fun _ hs => absurd hs List.not_mem_nil) h

/-- Of the elements with one key, exactly the first is kept, or none if the
key was seen. -/
theorem filter_distinctFrom {β : Type} [DecidableEq β] (key : α → β) (k : β) (seen l : List α) :
    (distinctFrom (fun a b => key a == key b) seen l).filter (key · = k) =
      if k ∈ seen.map key then [] else (l.filter (key · = k)).head?.toList := by
  induction l generalizing seen with
  | nil => simp [distinctFrom]
  | cons a l ih =>
      have hseen : seen.any (fun s => key s == key a) = true ↔ key a ∈ seen.map key := by
        simp
      rw [distinctFrom]
      by_cases ha : key a = k
      · by_cases hk : k ∈ seen.map key
        · rw [if_pos (hseen.mpr (ha ▸ hk)), ih, if_pos hk, if_pos hk]
        · rw [if_neg (mt hseen.mp (ha ▸ hk)), List.filter_cons_of_pos (by simpa using ha), ih,
            if_neg hk, if_pos (by simp [ha]), List.filter_cons_of_pos (by simpa using ha)]
          rfl
      · have hskip : (a :: l).filter (key · = k) = l.filter (key · = k) :=
          List.filter_cons_of_neg (by simpa using ha)
        split
        · rw [ih, hskip]
        · have hmem : k ∈ (a :: seen).map key ↔ k ∈ seen.map key := by
            simp [Ne.symm ha]
          rw [List.filter_cons_of_neg (by simpa using ha), ih, hskip]
          simp only [hmem]

theorem filter_distinct {β : Type} [DecidableEq β] (key : α → β) (k : β) (l : List α) :
    (distinct (fun a b => key a == key b) l).filter (key · = k) =
      (l.filter (key · = k)).head?.toList := by
  rw [distinct, filter_distinctFrom, if_neg (by simp)]

/-! ### First occurrences -/

/-- The elements of a list, each with all that stands before it; `before`
stands before the whole list. -/
def withEarlierFrom (before : List α) : List α → List (List α × α)
  | [] => []
  | a :: more => (before, a) :: withEarlierFrom (before ++ [a]) more

/-- The elements of a list, each with those that stand before it. -/
def withEarlier (l : List α) : List (List α × α) :=
  withEarlierFrom [] l

/-- The elements whose key no element before them has, in order. -/
def firsts {β : Type} [DecidableEq β] (key : α → β) (l : List α) : List α :=
  ((withEarlier l).filter fun x => key x.2 ∉ x.1.map key).map Prod.snd

theorem length_withEarlierFrom (before l : List α) :
    (withEarlierFrom before l).length = l.length := by
  induction l generalizing before with
  | nil => rfl
  | cons a l ih => rw [withEarlierFrom, List.length_cons, List.length_cons, ih]

/-- Whatever stands before the list is given with every element. -/
theorem mem_of_mem_withEarlierFrom {before l : List α} {x : List α × α} {a : α}
    (h : x ∈ withEarlierFrom before l) (ha : a ∈ before) : a ∈ x.1 := by
  induction l generalizing before with
  | nil => cases h
  | cons b l ih =>
      rcases List.mem_cons.mp h with rfl | h
      · exact ha
      · exact ih h (List.mem_append_left [b] ha)

/-- An element is among those that are given with a later one. -/
theorem pairwise_withEarlierFrom (before l : List α) :
    (withEarlierFrom before l).Pairwise fun x y => x.2 ∈ y.1 := by
  induction l generalizing before with
  | nil => exact .nil
  | cons a l ih =>
      refine List.pairwise_cons.mpr ⟨fun y hy => ?_, ih (before ++ [a])⟩
      exact mem_of_mem_withEarlierFrom hy (List.mem_append_right before List.mem_cons_self)

theorem withEarlierFrom_append (before l m : List α) :
    withEarlierFrom before (l ++ m) =
      withEarlierFrom before l ++ withEarlierFrom (before ++ l) m := by
  induction l generalizing before with
  | nil => rw [List.append_nil, withEarlierFrom, List.nil_append, List.nil_append]
  | cons a l ih =>
      rw [List.cons_append, withEarlierFrom, withEarlierFrom, ih, List.cons_append,
        List.append_cons before a l]

/-- One more element is a first one if its key is new. -/
theorem firsts_concat {β : Type} [DecidableEq β] (key : α → β) (l : List α) (a : α) :
    firsts key (l ++ [a]) = firsts key l ++ if key a ∈ l.map key then [] else [a] := by
  rw [firsts, withEarlier, withEarlierFrom_append, List.filter_append, List.map_append]
  refine congrArg _ ?_
  by_cases ha : key a ∈ l.map key
  · rw [if_pos ha, List.nil_append, withEarlierFrom, List.filter_cons_of_neg (by simpa using ha)]
    rfl
  · rw [if_neg ha, List.nil_append, withEarlierFrom, List.filter_cons_of_pos (by simpa using ha)]
    rfl

theorem nodup_map_firsts {β : Type} [DecidableEq β] (key : α → β) (l : List α) :
    ((firsts key l).map key).Nodup := by
  have hpairwise := (pairwise_withEarlierFrom [] l).filter fun x => key x.2 ∉ x.1.map key
  rw [List.Nodup, firsts, List.pairwise_map, List.pairwise_map]
  refine hpairwise.imp_of_mem fun {x y} _ hy hxy heq => ?_
  have hnew : key y.2 ∉ y.1.map key := by simpa using (List.mem_filter.mp hy).2
  exact hnew (heq ▸ List.mem_map_of_mem hxy)

/-- Keeping the first of all elements with a key leaves the first
occurrences. -/
theorem distinctFrom_eq_firsts {β : Type} [DecidableEq β] {key : α → β}
    (hsame : ∀ a b, same a b = true ↔ key a = key b) {seen before : List α}
    (h : ∀ k, k ∈ seen.map key ↔ k ∈ before.map key) (l : List α) :
    distinctFrom same seen l =
      ((withEarlierFrom before l).filter fun x => key x.2 ∉ x.1.map key).map Prod.snd := by
  induction l generalizing seen before with
  | nil => rfl
  | cons a l ih =>
      have hseen : seen.any (same · a) = true ↔ key a ∈ before.map key := by
        rw [← h, List.any_eq_true, List.mem_map]
        exact exists_congr fun s => and_congr_right fun _ => hsame s a
      rw [distinctFrom, withEarlierFrom]
      by_cases ha : key a ∈ before.map key
      · rw [if_pos (hseen.mpr ha), List.filter_cons_of_neg (by simpa using ha)]
        refine ih fun k => (h k).trans ?_
        -- the key of the element that is left out is already there
        rw [List.map_append, List.mem_append]
        refine ⟨.inl, fun hk => hk.elim id fun hk => ?_⟩
        rwa [List.mem_singleton.mp hk]
      · rw [if_neg (mt hseen.mp ha), List.filter_cons_of_pos (by simpa using ha), List.map_cons]
        congr 1
        refine ih fun k => ?_
        rw [List.map_cons, List.mem_cons, h, List.map_append, List.mem_append, or_comm]
        exact or_congr_right List.mem_singleton.symm

theorem distinct_eq_firsts {β : Type} [DecidableEq β] {key : α → β}
    (hsame : ∀ a b, same a b = true ↔ key a = key b) (l : List α) :
    distinct same l = firsts key l :=
  distinctFrom_eq_firsts hsame (fun _ => Iff.rfl) l

/-- Every key has a first element. -/
theorem mem_map_firsts {β : Type} [DecidableEq β] {key : α → β} {l : List α} {k : β} :
    k ∈ (firsts key l).map key ↔ k ∈ l.map key := by
  rw [← distinct_eq_firsts fun a b => decide_eq_true_iff, List.mem_map, List.mem_map]
  constructor
  · rintro ⟨a, ha, rfl⟩
    exact ⟨a, mem_of_mem_distinctFrom ha, rfl⟩
  · rintro ⟨a, ha, rfl⟩
    obtain ⟨b, hb, hkey⟩ := @exists_mem_distinct α (fun a b => decide (key a = key b)) l a
      (fun _ => decide_eq_true rfl) ha
    exact ⟨b, hb, of_decide_eq_true hkey⟩

/-- Where only some elements are taken, each is given with the earlier ones
that are. -/
theorem withEarlierFrom_filter (taken : α → Bool) (before l : List α) :
    withEarlierFrom (before.filter taken) (l.filter taken) =
      ((withEarlierFrom before l).filter fun x => taken x.2).map
        fun x => (x.1.filter taken, x.2) := by
  induction l generalizing before with
  | nil => rfl
  | cons a l ih =>
      have hnext := ih (before ++ [a])
      rw [List.filter_append, List.filter_cons] at hnext
      rw [List.filter_cons, withEarlierFrom, List.filter_cons]
      split at hnext
      · next ha =>
          rw [if_pos ha, if_pos ha, withEarlierFrom, List.map_cons, ← hnext, List.filter_nil]
      · next ha => rw [if_neg ha, if_neg ha, ← hnext, List.filter_nil, List.append_nil]

theorem firsts_filter {β : Type} [DecidableEq β] (key : α → β) (taken : α → Bool) (l : List α) :
    firsts key (l.filter taken) =
      ((withEarlier l).filter fun x =>
        taken x.2 ∧ key x.2 ∉ (x.1.filter taken).map key).map Prod.snd := by
  have hall : withEarlier (l.filter taken) = _ := withEarlierFrom_filter taken [] l
  rw [firsts, hall, List.filter_map, List.map_map, List.filter_filter, withEarlier]
  congr 1
  refine List.filter_congr fun x _ => ?_
  simp [Bool.and_comm]

/-! ### Without repetitions -/

theorem mem_of_mem_dropRepeatsAfter {last a : α} {l : List α}
    (h : a ∈ dropRepeatsAfter same last l) : a ∈ l := by
  induction l generalizing last with
  | nil => cases h
  | cons b l ih =>
      rw [dropRepeatsAfter] at h
      split at h
      · exact List.mem_cons_of_mem b (ih h)
      · rcases List.mem_cons.mp h with rfl | h
        · exact List.mem_cons_self
        · exact List.mem_cons_of_mem b (ih h)

theorem mem_of_mem_dropRepeats {a : α} {l : List α} (h : a ∈ dropRepeats same l) : a ∈ l := by
  rcases l with - | ⟨b, l⟩
  · cases h
  · rcases List.mem_cons.mp h with rfl | h
    · exact List.mem_cons_self
    · exact List.mem_cons_of_mem b (mem_of_mem_dropRepeatsAfter h)

/-- What is dropped is the same as the last that was kept. -/
theorem exists_mem_dropRepeatsAfter {last a : α} {l : List α} (hrefl : ∀ a, same a a = true)
    (h : a ∈ l) : same last a = true ∨ ∃ b ∈ dropRepeatsAfter same last l, same b a = true := by
  induction l generalizing last with
  | nil => cases h
  | cons c l ih =>
      rw [dropRepeatsAfter]
      split
      · next hsame =>
          rcases List.mem_cons.mp h with rfl | h
          · exact .inl hsame
          · exact ih h
      · rcases List.mem_cons.mp h with rfl | h
        · exact .inr ⟨a, List.mem_cons_self, hrefl a⟩
        · rcases @ih c h with hc | ⟨b, hb, hba⟩
          · exact .inr ⟨c, List.mem_cons_self, hc⟩
          · exact .inr ⟨b, List.mem_cons_of_mem c hb, hba⟩

theorem exists_mem_dropRepeats {a : α} {l : List α} (hrefl : ∀ a, same a a = true) (h : a ∈ l) :
    ∃ b ∈ dropRepeats same l, same b a = true := by
  rcases l with - | ⟨c, l⟩
  · cases h
  · rcases List.mem_cons.mp h with rfl | h
    · exact ⟨a, List.mem_cons_self, hrefl a⟩
    · rcases @exists_mem_dropRepeatsAfter α same c a l hrefl h with hc | ⟨b, hb, hba⟩
      · exact ⟨c, List.mem_cons_self, hc⟩
      · exact ⟨b, List.mem_cons_of_mem c hb, hba⟩

/-- In a list that is in order, nothing is left twice. -/
theorem pairwise_dropRepeatsAfter {le : α → α → Bool} {last : α} {l : List α}
    (htrans : ∀ a b c, le a b = true → le b c = true → le a c = true)
    (hsame : ∀ a b, same a b = true ↔ le a b = true ∧ le b a = true)
    (h : (last :: l).Pairwise fun a b => le a b = true) :
    (last :: dropRepeatsAfter same last l).Pairwise
      fun a b => le a b = true ∧ ¬ same a b = true := by
  induction l generalizing last with
  | nil => exact List.pairwise_singleton _ last
  | cons b l ih =>
      have hlast := (List.pairwise_cons.mp h).1
      have hrest := (List.pairwise_cons.mp h).2
      rw [dropRepeatsAfter]
      split
      · exact ih (List.pairwise_cons.mpr
          ⟨fun x hx => hlast x (List.mem_cons_of_mem b hx), (List.pairwise_cons.mp hrest).2⟩)
      · next hne =>
          refine List.pairwise_cons.mpr ⟨?_, ih hrest⟩
          intro x hx
          rcases List.mem_cons.mp hx with rfl | hx
          · exact ⟨hlast x List.mem_cons_self, hne⟩
          · -- `x` is not below `b`, which is strictly above `last`
            have hmem := mem_of_mem_dropRepeatsAfter hx
            have hbx := (List.pairwise_cons.mp hrest).1 x hmem
            refine ⟨hlast x (List.mem_cons_of_mem b hmem), fun hx => hne ?_⟩
            exact (hsame last b).mpr ⟨hlast b List.mem_cons_self,
              htrans b x last hbx ((hsame last x).mp hx).2⟩

theorem pairwise_dropRepeats {le : α → α → Bool} {l : List α}
    (htrans : ∀ a b c, le a b = true → le b c = true → le a c = true)
    (hsame : ∀ a b, same a b = true ↔ le a b = true ∧ le b a = true)
    (h : l.Pairwise fun a b => le a b = true) :
    (dropRepeats same l).Pairwise fun a b => le a b = true ∧ ¬ same a b = true := by
  rcases l with - | ⟨a, l⟩
  · exact .nil
  · exact pairwise_dropRepeatsAfter htrans hsame h

/-- In a list that is in order, all that is the same stands together. -/
theorem dropRepeatsAfter_eq_distinctFrom {le : α → α → Bool} {seen : List α} {last : α} {l : List α}
    (htrans : ∀ a b c, le a b = true → le b c = true → le a c = true)
    (hsame : ∀ a b, same a b = true ↔ le a b = true ∧ le b a = true)
    (hrefl : ∀ a, le a a = true) (hlast : last ∈ seen) (hseen : ∀ s ∈ seen, le s last = true)
    (h : (last :: l).Pairwise fun a b => le a b = true) :
    dropRepeatsAfter same last l = distinctFrom same seen l := by
  induction l generalizing last seen with
  | nil => rfl
  | cons a l ih =>
      have hbelow := (List.pairwise_cons.mp h).1
      have hrest := (List.pairwise_cons.mp h).2
      have hlasta : le last a = true := hbelow a List.mem_cons_self
      -- what was seen lies below the last one, which lies below `a`
      have hany : seen.any (same · a) = true ↔ same last a = true := by
        rw [List.any_eq_true]
        refine ⟨?_, fun hsa => ⟨last, hlast, hsa⟩⟩
        rintro ⟨s, hs, hsa⟩
        exact (hsame last a).mpr
          ⟨hlasta, htrans a s last ((hsame s a).mp hsa).2 (hseen s hs)⟩
      rw [dropRepeatsAfter, distinctFrom]
      by_cases hsa : same last a = true
      · rw [if_pos hsa, if_pos (hany.mpr hsa)]
        refine ih hlast hseen (List.pairwise_cons.mpr ⟨fun x hx => ?_, hrest.of_cons⟩)
        exact hbelow x (List.mem_cons_of_mem a hx)
      · rw [if_neg hsa, if_neg (mt hany.mp hsa)]
        refine congrArg _ (ih List.mem_cons_self (fun s hs => ?_) hrest)
        rcases List.mem_cons.mp hs with rfl | hs
        · exact hrefl s
        · exact htrans s last a (hseen s hs) hlasta

theorem dropRepeats_eq_distinct {le : α → α → Bool} {l : List α}
    (htrans : ∀ a b c, le a b = true → le b c = true → le a c = true)
    (hsame : ∀ a b, same a b = true ↔ le a b = true ∧ le b a = true)
    (hrefl : ∀ a, le a a = true) (h : l.Pairwise fun a b => le a b = true) :
    dropRepeats same l = distinct same l := by
  rcases l with - | ⟨a, l⟩
  · rfl
  · refine congrArg _ (dropRepeatsAfter_eq_distinctFrom htrans hsame hrefl List.mem_cons_self ?_ h)
    intro s hs
    rw [List.mem_singleton.mp hs, hrefl]

/-! ### Sorting -/

/-- **Sorting keeps the order of elements with one key**, if the key alone is
compared. -/
theorem filter_mergeSort {β : Type} [DecidableEq β] {key : α → β} {le : α → α → Bool}
    (htrans : ∀ a b c, le a b = true → le b c = true → le a c = true)
    (htotal : ∀ a b, (le a b || le b a) = true) (hle : ∀ a b, key a = key b → le a b = true)
    (k : β) (l : List α) :
    (l.mergeSort le).filter (key · = k) = l.filter (key · = k) := by
  have hkey : ∀ a ∈ l.filter (key · = k), key a = k := by
    intro a ha
    simpa using (List.mem_filter.mp ha).2
  have hpairwise : (l.filter (key · = k)).Pairwise fun a b => le a b = true :=
    List.pairwise_of_forall_mem_list fun a ha b hb => hle a b ((hkey a ha).trans (hkey b hb).symm)
  have hsublist := (List.sublist_mergeSort htrans htotal hpairwise List.filter_sublist).filter
    (key · = k)
  rw [List.filter_filter] at hsublist
  simp only [Bool.and_self] at hsublist
  exact (hsublist.eq_of_length ((List.mergeSort_perm l le).filter _).length_eq.symm).symm

end LatexIndex.Listing
