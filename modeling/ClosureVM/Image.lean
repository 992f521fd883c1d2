import ClosureVM.Code.Listing
import ClosureVM.Value.Inspect

/-! Code together with the constants it refers to. -/
namespace ClosureVM

structure Image where
  code : Code
  constants : Array Value
  deriving Inhabited

namespace Image

/-- A constant, and below it the code of a function. -/
def constantLines (i : Nat) (v : Value) : Except CodeError (List String) := do
  let head := s!"  [{i}] {v.inspect}"
  match v with
  | .function proto => return head :: (← proto.code.disassembly).map ("        " ++ ·)
  | _ => return [head]

/-- The constants and the code in writing. -/
def dump (image : Image) : Except CodeError String := do
  let constants ← image.constants.toList.zipIdx.mapM fun (v, i) => constantLines i v
  let code ← image.code.disassembly
  let lines := ["CONSTS:"] ++ constants.flatten ++ ["", "INSTRUCTIONS:"] ++ code.map ("  " ++ ·)
  return String.intercalate "\n" lines

end Image
end ClosureVM
