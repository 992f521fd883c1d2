import ClosureVM.Text.Literal
import ClosureVM.Value.Basic

/-! Values as text. -/
namespace ClosureVM

def Key.inspect : Key → String
  | .int n => toString n
  | .bool b => boolText b
  | .str s => s

mutual

/-- Functions show no contents, and their addresses are all written as zero. -/
def Value.inspect : Value → String
  | .null => "null"
  | .bool b => boolText b
  | .int n => toString n
  | .str s => s
  | .array _ elements => listText "[" "]" (inspectElements elements)
  | .hash _ entries => listText "\x7b" "\x7d" (inspectEntries entries)
  | .function _ => "CompiledFunction[0x0]"
  | .closure .. => "Closure[0x0]"
  | .builtin _ => "builtin function"

def inspectElements : List Value → List String
  | [] => []
  | v :: rest => v.inspect :: inspectElements rest

def inspectEntries : List (Key × Value) → List String
  | [] => []
  | (k, v) :: rest => (k.inspect ++ ": " ++ v.inspect) :: inspectEntries rest

end

end ClosureVM
