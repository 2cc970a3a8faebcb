/-!
# Lines of text

A line ends at a line feed, at a carriage return, or at the pair of both, which counts once. No
other character ends a line. `unifyLineEnds` writes every line end as one line feed, and `lines`
splits a text into its lines: a last line without a line end counts, an empty remainder does not.
-/

set_option autoImplicit false

namespace LatexLogic.Text

/-- Writes each of the three line ends as one line feed. -/
def unifyLineEnds : List Char → List Char
  | [] => []
  | '\r' :: '\n' :: cs => '\n' :: unifyLineEnds cs
  | c :: cs => (if c = '\r' then '\n' else c) :: unifyLineEnds cs

/-- The lines of a text whose line ends are single line feeds, without these line feeds. -/
def splitLines : List Char → List (List Char)
  | [] => []
  | c :: cs =>
    if c = '\n' then [] :: splitLines cs
    else match splitLines cs with
      | [] => [[c]]
      | line :: rest => (c :: line) :: rest

/-- The lines of a text, whatever line ends it uses. -/
def lines (text : String) : List String :=
  (splitLines (unifyLineEnds text.toList)).map String.ofList

end LatexLogic.Text
