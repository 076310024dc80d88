/-
LatexIndex/Markup/Comment.lean

Comments.  A `%` starts a comment unless it is escaped, and it is escaped
when an odd number of backslashes stands directly before it: in `\\%` the
backslashes escape each other and the comment does start.
-/

namespace LatexIndex.Markup

/-- The line up to its comment, given how many backslashes stand directly
before it. -/
def stripCommentFrom (backslashes : Nat) : List Char → List Char
  | [] => []
  | c :: rest =>
    if c == '%' && backslashes % 2 == 0 then []
    else c :: stripCommentFrom (if c == '\\' then backslashes + 1 else 0) rest

/-- The line up to its first unescaped `%`. -/
def stripComment (line : List Char) : List Char :=
  stripCommentFrom 0 line

end LatexIndex.Markup
