/-
LatexIndex/Proofs/Offering.lean

What is offered for a word that is being typed.

The candidates that start with what was typed are sorted by word, and of
neighbours with one word the first is kept.  Sorting leaves the candidates with
one word in their order and puts them together, so the one that is kept is the
first of all that the source has (`filter_offer_eq`).  A list in order is told
by its members, and whether a candidate is offered depends on what was typed
only through its own word (`mem_offer`).  So typing on is the same as leaving
out of the list what does not start so (`offer_append`).
-/
import LatexIndex.Completion.Complete
import LatexIndex.Proofs.ByteOrder
import LatexIndex.Proofs.Listing

namespace LatexIndex.Completion

open Cursor Listing Text

/-! ### The order of candidates -/

namespace Candidate

theorem le_iff {a b : Candidate} : a.le b = true ↔ a.word ≤ b.word := by
  rw [le, Bool.not_eq_true', decide_eq_false_iff_not, String.not_lt]

theorem le_trans (a b c : Candidate) (hab : a.le b = true) (hbc : b.le c = true) :
    a.le c = true :=
  le_iff.mpr (String.le_trans (le_iff.mp hab) (le_iff.mp hbc))

theorem le_total (a b : Candidate) : (a.le b || b.le a) = true := by
  rw [Bool.or_eq_true, le_iff, le_iff]
  exact String.le_total a.word b.word

theorem le_of_word_eq (a b : Candidate) (h : a.word = b.word) : a.le b = true :=
  le_iff.mpr (h ▸ String.le_refl a.word)

theorem word_eq_iff (a b : Candidate) :
    (a.word == b.word) = true ↔ a.le b = true ∧ b.le a = true := by
  rw [beq_iff_eq, le_iff, le_iff]
  constructor
  · intro h
    rw [h]
    exact ⟨String.le_refl _, String.le_refl _⟩
  · rintro ⟨hab, hba⟩
    exact String.le_antisymm hab hba

theorem startsWith_iff {typed : String} {c : Candidate} :
    c.startsWith typed = true ↔ typed.toList <+: c.word.toList :=
  List.isPrefixOf_iff_prefix

end Candidate

/-! ### What is offered -/

variable {typed more word : String} {source : List Candidate} {c : Candidate}

theorem pairwise_mergeSort_le (source : List Candidate) :
    (source.mergeSort Candidate.le).Pairwise fun a b => a.le b = true :=
  List.pairwise_mergeSort Candidate.le_trans Candidate.le_total source

/-- What is offered is in order, each word once. -/
theorem pairwise_offer (typed : String) (source : List Candidate) :
    (offer typed source).Pairwise fun a b => a.word < b.word := by
  refine (pairwise_dropRepeats Candidate.le_trans Candidate.word_eq_iff
    (pairwise_mergeSort_le _)).imp ?_
  rintro a b ⟨hle, hne⟩
  refine String.not_le.mp fun hba => hne ?_
  exact (Candidate.word_eq_iff a b).mpr ⟨hle, Candidate.le_iff.mpr hba⟩

/-- **A word is offered by its first candidate**, if it starts with what was
typed. -/
theorem filter_offer_eq (typed word : String) (source : List Candidate) :
    (offer typed source).filter (·.word = word) =
      if typed.toList <+: word.toList then (source.find? (·.word = word)).toList else [] := by
  have hrefl : ∀ c : Candidate, c.le c = true := fun c => Candidate.le_of_word_eq c c rfl
  rw [offer, dropRepeats_eq_distinct Candidate.le_trans Candidate.word_eq_iff hrefl
    (pairwise_mergeSort_le _), filter_distinct Candidate.word,
    filter_mergeSort Candidate.le_trans Candidate.le_total Candidate.le_of_word_eq,
    List.filter_filter]
  split
  · next hstarts =>
      -- all candidates with the word start so
      rw [← List.head?_filter]
      congr 2
      refine List.filter_congr fun c _ => ?_
      by_cases hc : c.word = word
      · rw [decide_eq_true hc, Bool.true_and, Candidate.startsWith_iff.mpr (hc ▸ hstarts)]
      · rw [decide_eq_false hc, Bool.false_and]
  · next hstarts =>
      -- and otherwise none of them does
      rw [List.filter_eq_nil_iff.mpr]
      · rfl
      · intro c _ hc
        rw [Bool.and_eq_true, decide_eq_true_iff, Candidate.startsWith_iff] at hc
        exact hstarts (hc.1 ▸ hc.2)

theorem mem_offer : c ∈ offer typed source ↔
    typed.toList <+: c.word.toList ∧ source.find? (·.word = c.word) = some c := by
  have hself : c ∈ offer typed source ↔
      c ∈ (offer typed source).filter (·.word = c.word) := by
    simp
  rw [hself, filter_offer_eq]
  split
  · next hstarts => simp [hstarts]
  · next hstarts => simp [hstarts]

/-- The words that are offered are those of the source that start so. -/
theorem exists_mem_offer : (∃ c ∈ offer typed source, c.word = word) ↔
    typed.toList <+: word.toList ∧ ∃ c ∈ source, c.word = word := by
  constructor
  · rintro ⟨c, hc, rfl⟩
    obtain ⟨hstarts, hfirst⟩ := mem_offer.mp hc
    exact ⟨hstarts, c, List.mem_of_find?_eq_some hfirst, rfl⟩
  · rintro ⟨hstarts, c, hc, rfl⟩
    obtain ⟨first, hfirst⟩ : ∃ first, source.find? (·.word = c.word) = some first :=
      Option.isSome_iff_exists.mp (List.find?_isSome.mpr ⟨c, hc, by simp⟩)
    have hword : first.word = c.word := by simpa using List.find?_some hfirst
    exact ⟨first, mem_offer.mpr ⟨hword ▸ hstarts, hword ▸ hfirst⟩, hword⟩

/-- **Typing on narrows down** what was offered. -/
theorem offer_append (typed more : String) (source : List Candidate) :
    offer (typed ++ more) source =
      (offer typed source).filter (·.startsWith (typed ++ more)) := by
  have hnodup : ∀ typed, (offer typed source).Nodup := by
    intro typed
    refine (pairwise_offer typed source).imp ?_
    rintro a _ hlt rfl
    exact String.lt_irrefl a.word hlt
  have hperm : (offer (typed ++ more) source).Perm
      ((offer typed source).filter (·.startsWith (typed ++ more))) := by
    rw [List.perm_ext_iff_of_nodup (hnodup _) ((hnodup _).filter _)]
    intro c
    rw [List.mem_filter, mem_offer, mem_offer, Candidate.startsWith_iff]
    constructor
    · rintro ⟨hstarts, hfirst⟩
      rw [String.toList_append] at hstarts
      exact ⟨⟨(List.prefix_append _ _).trans hstarts, hfirst⟩, by rwa [String.toList_append]⟩
    · rintro ⟨⟨-, hfirst⟩, hstarts⟩
      exact ⟨hstarts, hfirst⟩
  refine hperm.eq_of_pairwise (fun a b _ _ hab hba => ?_) (pairwise_offer _ _)
    ((pairwise_offer _ _).filter _)
  exact absurd hba (String.lt_asymm hab)

/-! ### Completing -/

/-- The same knowledge without a limit on what is offered. -/
def Knowledge.unlimited (known : Knowledge) : Knowledge :=
  { known with settings := { known.settings with completionLimit := 0 } }

theorem complete_unlimited (known : Knowledge) (context : Context) (typed : String) :
    complete known.unlimited context typed = offer typed (candidates known context) := by
  cases context <;> rfl

theorem complete_eq (known : Knowledge) (context : Context) (typed : String) :
    complete known context typed =
      upTo known.settings.completionLimit (complete known.unlimited context typed) := by
  rw [complete_unlimited, complete]

theorem upTo_sublist (limit : Nat) (source : List Candidate) :
    (upTo limit source).Sublist source := by
  rw [upTo]
  split
  · exact List.Sublist.refl _
  · exact List.take_sublist limit source

/-- **Completing a word.**  What is offered is strictly increasing in the order
of bytes and starts with what was typed.  Without a limit, the words that are
offered are those of the source that start so, each by its first candidate; with
a limit the first of these are offered, as many as it says.  And typing on
leaves of what was offered without a limit exactly what still starts so. -/
theorem complete_offers_first_candidates (known : Knowledge) (context : Context) (typed : String) :
    ((complete known context typed).Pairwise fun a b => utf8 a.word < utf8 b.word) ∧
    (∀ c ∈ complete known context typed, typed.toList <+: c.word.toList) ∧
    (∀ word, (∃ c ∈ complete known.unlimited context typed, c.word = word) ↔
      typed.toList <+: word.toList ∧ ∃ c ∈ candidates known context, c.word = word) ∧
    (∀ c ∈ complete known.unlimited context typed,
      (candidates known context).find? (·.word = c.word) = some c) ∧
    (known.settings.completionLimit = 0 →
      complete known context typed = complete known.unlimited context typed) ∧
    (0 < known.settings.completionLimit → complete known context typed =
      (complete known.unlimited context typed).take known.settings.completionLimit) ∧
    (∀ more, complete known.unlimited context (typed ++ more) =
      (complete known.unlimited context typed).filter (·.startsWith (typed ++ more))) := by
  have hsublist : (complete known context typed).Sublist
      (offer typed (candidates known context)) := by
    rw [complete_eq, complete_unlimited]
    exact upTo_sublist _ _
  refine ⟨?_, ?_, ?_, ?_, ?_, ?_, ?_⟩
  · exact ((pairwise_offer _ _).sublist hsublist).imp utf8_lt
  · intro c hc
    exact (mem_offer.mp (hsublist.subset hc)).1
  · intro word
    rw [complete_unlimited]
    exact exists_mem_offer
  · intro c hc
    rw [complete_unlimited] at hc
    exact (mem_offer.mp hc).2
  · intro hlimit
    rw [complete_eq, upTo, if_pos hlimit]
  · intro hlimit
    rw [complete_eq, upTo, if_neg (Nat.ne_of_gt hlimit)]
  · intro more
    rw [complete_unlimited, complete_unlimited, offer_append]

/-- A project with three labels, of which one may be offered at a time. -/
def limitedKnowledge : Knowledge where
  disk := ⟨[], [], "/"⟩
  fontListing := ""
  settings := { completionLimit := 1 }
  snapshot :=
    { Snapshot.empty ⟨"/m.tex"⟩ with
      labels := (LabelIndex.extend ⟨.empty⟩ [⟨"sec:b", ⟨⟨"/m.tex"⟩, 0⟩⟩,
        ⟨"fig", ⟨⟨"/m.tex"⟩, 1⟩⟩, ⟨"sec:a", ⟨⟨"/m.tex"⟩, 2⟩⟩]).1 }

theorem complete_offers_first_candidates_limited :
    0 < limitedKnowledge.settings.completionLimit ∧
    complete limitedKnowledge .labelReference "s" =
      (complete limitedKnowledge.unlimited .labelReference "s").take 1 ∧
    complete limitedKnowledge.unlimited .labelReference ("s" ++ "ec") =
      (complete limitedKnowledge.unlimited .labelReference "s").filter (·.startsWith "sec") ∧
    ∃ c ∈ complete limitedKnowledge.unlimited .labelReference "s", c.word = "sec:a" := by
  obtain ⟨-, -, hwords, -, -, htake, hnarrow⟩ :=
    complete_offers_first_candidates limitedKnowledge .labelReference "s"
  refine ⟨by decide, htake (by decide), hnarrow "ec", (hwords "sec:a").mpr ⟨by decide, ?_⟩⟩
  exact ⟨⟨"sec:a", some "m.tex", .label, false⟩, by decide, rfl⟩

end LatexIndex.Completion
