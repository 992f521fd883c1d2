/-! How truth values and lists are written. -/
namespace ClosureVM

def boolText (b : Bool) : String := if b then "true" else "false"

/-- Items separated by commas, between an opening and a closing mark. -/
def listText (opening closing : String) (items : List String) : String :=
  opening ++ String.intercalate ", " items ++ closing

end ClosureVM
