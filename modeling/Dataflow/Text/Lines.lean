/-!
# Lines of a text

A line ends at a line feed; a carriage return right before the line feed belongs
to the line's end, too. What follows the last line feed is a line of its own
unless it is empty.
-/

namespace Dataflow.Text

/-- The lines of `cs`, after the characters `seen` (last one first) of a line not yet ended. -/
def linesAfter : (seen : List Char) → (cs : List Char) → List (List Char)
  | [], [] => []
  | seen, [] => [seen.reverse]
  | seen, c :: cs =>
    if c = '\n' then
      (match seen with
        | '\r' :: before => before.reverse
        | _ => seen.reverse) :: linesAfter [] cs
    else linesAfter (c :: seen) cs

/-- The lines of a text, without their ends. -/
def lines (s : String) : List String := (linesAfter [] s.toList).map String.ofList

end Dataflow.Text
