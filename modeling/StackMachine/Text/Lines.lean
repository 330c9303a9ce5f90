/-!
# Lines

A line ends at a line feed, which takes one carriage return before it along. Text after the last
line feed is a line of its own, unless it is empty, and keeps its carriage return.
-/

namespace StackMachine

namespace Text

/-- A line held backwards, without the carriage return it ends with. -/
def dropReturn : List Char → List Char
  | '\r' :: rest => rest
  | line => line

/-- The lines of a text that continues a line whose characters are held backwards. -/
def linesFrom : (current : List Char) → List Char → List (List Char)
  | [], [] => []
  | current, [] => [current.reverse]
  | current, c :: rest =>
    if c = '\n' then (dropReturn current).reverse :: linesFrom [] rest
    else linesFrom (c :: current) rest

/-- The lines of a text, without their line ends. -/
def lines (text : List Char) : List (List Char) :=
  linesFrom [] text

end Text

end StackMachine
