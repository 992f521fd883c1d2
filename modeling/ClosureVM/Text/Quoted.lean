import ClosureVM.Text.Printable

/-! Quoted text: what a reader could not see is written as an escape. -/
namespace ClosureVM.Text

/-- `n` in lower-case hexadecimal with at least `width` digits. -/
def hex (width n : Nat) : String :=
  let digits := Nat.toDigits 16 n
  String.ofList (List.replicate (width - digits.length) '0' ++ digits)

/-- How `c` is written between two `quote` characters. -/
def escape (quote c : Char) : String :=
  if c == '\\' || c == quote then "\\" ++ c.toString
  else if c == '\t' then "\\t"
  else if c == '\n' then "\\n"
  else if c == '\r' then "\\r"
  else if isPrintable c then c.toString
  else if c.toNat ≤ 0xff then "\\x" ++ hex 2 c.toNat
  else if c.toNat ≤ 0xffff then "\\u" ++ hex 4 c.toNat
  else "\\U" ++ hex 8 c.toNat

/-- Single quotes, unless the text has a single quote and no double one. -/
def quoteFor (text : List Char) : Char :=
  if text.contains '\x27' && !text.contains '\x22' then '\x22' else '\x27'

def quoted (text : List Char) : String :=
  let quote := quoteFor text
  quote.toString ++ String.join (text.map (escape quote)) ++ quote.toString

end ClosureVM.Text
