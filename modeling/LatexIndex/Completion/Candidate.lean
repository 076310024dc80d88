/-
LatexIndex/Completion/Candidate.lean

Candidates for a word that is being typed, and how a list of them is offered:
those that start with what was typed, by word, each word once.  Of several
candidates with one word the first counts.
-/
import LatexIndex.Listing

namespace LatexIndex.Completion

/-- What a candidate stands for. -/
inductive Kind where
  | label
  | citationKey
  | includePath
  | graphic
  | font
  deriving DecidableEq, Repr

/-- A word that can be completed to. -/
structure Candidate where
  word : String
  /-- What is shown beside the word. -/
  info : Option String
  kind : Kind
  /-- A key that more than one file defines. -/
  ambiguous : Bool := false
  deriving DecidableEq, Repr

/-- Whether the word starts with what was typed. -/
def Candidate.startsWith (typed : String) (c : Candidate) : Bool :=
  typed.toList.isPrefixOf c.word.toList

/-- Whether one candidate's word comes before another's or equals it. -/
def Candidate.le (a b : Candidate) : Bool :=
  !(b.word < a.word)

/-- The candidates that start with what was typed, in order, each word
once. -/
def offer (typed : String) (candidates : List Candidate) : List Candidate :=
  Listing.dropRepeats (fun a b => a.word == b.word)
    ((candidates.filter (·.startsWith typed)).mergeSort Candidate.le)

/-- The first `limit` elements, or all of them when the limit is zero. -/
def upTo (limit : Nat) (candidates : List Candidate) : List Candidate :=
  if limit = 0 then candidates else candidates.take limit

end LatexIndex.Completion
