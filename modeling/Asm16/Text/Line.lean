namespace Asm16.Text

/-- Drops one carriage return at the end. -/
def dropReturn (line : List Char) : List Char :=
  if line.getLast? = some '\r' then line.dropLast else line

/-- The lines of a text. A line ends at a line feed, and a carriage return right before the line
feed belongs to the ending. What follows the last line feed is a line of its own if it is not
empty; no line feed ends it, so a carriage return there stays. -/
def lines (text : List Char) : List (List Char) :=
  let pieces := text.splitOn '\n'
  pieces.dropLast.map dropReturn ++ pieces.getLast?.toList.filter (!·.isEmpty)

def beforeComment (line : List Char) : List Char :=
  line.takeWhile (· ≠ '#')

end Asm16.Text
