import ClosureVM.Text.CharRange

/-! Blank characters, line ends, and the words and lines they separate. -/
namespace ClosureVM.Text

/-- The white space of Unicode together with the four information separators. -/
def blanks : List CharRange :=
  [(0x09, 0x0d), (0x1c, 0x20), (0x85, 0x85), (0xa0, 0xa0), (0x1680, 0x1680),
    (0x2000, 0x200a), (0x2028, 0x2029), (0x202f, 0x202f), (0x205f, 0x205f), (0x3000, 0x3000)]

def isBlank (c : Char) : Bool := inRanges blanks c

/-- Line feed, vertical tab, form feed, carriage return, the file, group and record
separators, next line, and the line and paragraph separators. -/
def lineEnds : List CharRange :=
  [(0x0a, 0x0d), (0x1c, 0x1e), (0x85, 0x85), (0x2028, 0x2029)]

def isLineEnd (c : Char) : Bool := inRanges lineEnds c

/-- A text cut so far: the finished pieces, latest first, and the open piece, reversed. -/
structure Cut where
  done : List (List Char) := []
  current : List Char := []
  /-- The last character was a carriage return, so a line feed belongs to the same line end. -/
  afterReturn : Bool := false

/-- The pieces in reading order; an open piece with no characters is none. -/
def Cut.pieces (s : Cut) : List (List Char) :=
  (if s.current.isEmpty then s.done else s.current.reverse :: s.done).reverse

def Cut.word (s : Cut) (c : Char) : Cut :=
  if isBlank c then
    if s.current.isEmpty then s else { done := s.current.reverse :: s.done }
  else { s with current := c :: s.current }

/-- The maximal runs of characters that are not blank. -/
def words (text : List Char) : List (List Char) := (text.foldl Cut.word {}).pieces

def Cut.line (s : Cut) (c : Char) : Cut :=
  if c == '\n' && s.afterReturn then { s with afterReturn := false }
  else if isLineEnd c then { done := s.current.reverse :: s.done, afterReturn := c == '\r' }
  else { s with current := c :: s.current, afterReturn := false }

/-- The lines without their ends. A line end at the end of the text opens no further line. -/
def lines (text : List Char) : List (List Char) := (text.foldl Cut.line {}).pieces

end ClosureVM.Text
