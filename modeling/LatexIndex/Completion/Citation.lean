/-
LatexIndex/Completion/Citation.lean

Completing the keys of a project's bibliographies.  The entries are grouped by
their keys, so a key is offered once, with the title, the author or the type of
its first entry; a key that more than one file defines says so.
-/
import LatexIndex.Bib.Index
import LatexIndex.Catalog
import LatexIndex.Completion.Candidate
import LatexIndex.Text.Blank

namespace LatexIndex.Completion

open Text

/-- The text cut at a length, with dots for what is missing; a length of zero
cuts nothing. -/
def shorten (length : Nat) (text : String) : String :=
  if length = 0 || text.toList.length ≤ length then text
  else String.ofList (trimEnd (text.toList.take length)) ++ "..."

/-- What is shown beside the key of an entry. -/
def entryInfo (length : Nat) (entry : Bib.Entry) : String :=
  match entry.title.or entry.author with
  | some text => shorten length text
  | none => entry.entryType

/-- A key with every entry that has it, in order. -/
structure CitationGroup where
  key : String
  entries : List Bib.Entry
  deriving DecidableEq, Repr

namespace CitationGroup

/-- The group with one more entry. -/
def add (entry : Bib.Entry) (group : CitationGroup) : CitationGroup :=
  { group with entries := group.entries ++ [entry] }

/-- Whether the entries are of more than one file. -/
def isAmbiguous (group : CitationGroup) : Bool :=
  (Listing.distinct Path.same (group.entries.map (·.path))).length > 1

/-- The candidate for the key of a group, with what its first entry shows. -/
def candidate? (length : Nat) (group : CitationGroup) : Option Candidate :=
  group.entries.head?.map fun first =>
    let info := entryInfo length first
    let info := if group.isAmbiguous then s!"{info} (defined in {group.entries.length} files)"
      else info
    ⟨group.key, some info, .citationKey, group.isAmbiguous⟩

end CitationGroup

/-- Puts an entry into the group of its key, or into a new one behind the
others. -/
def fileEntry (groups : Catalog CitationGroup.key) (entry : Bib.Entry) :
    Catalog CitationGroup.key :=
  match groups.position? entry.key with
  | some i => groups.change i (·.add entry) fun _ => rfl
  | none => groups.push ⟨entry.key, [entry]⟩

/-- The groups of the entries of an index, in the order in which their keys
first occur. -/
def citationGroups (index : Bib.Index) : List CitationGroup :=
  (index.entries.foldl fileEntry .empty).items

/-- The candidates of an index. -/
def citations (length : Nat) (index : Bib.Index) : List Candidate :=
  (citationGroups index).filterMap (·.candidate? length)

end LatexIndex.Completion
