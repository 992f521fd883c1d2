/-! Character classes given as tables of code point ranges. -/
namespace ClosureVM.Text

/-- Both ends of a range belong to it. -/
abbrev CharRange := Nat × Nat

/-- Whether some range of the table holds the code point of `c`. -/
def inRanges (table : List CharRange) (c : Char) : Bool :=
  table.any fun (lo, hi) => lo ≤ c.toNat && c.toNat ≤ hi

end ClosureVM.Text
