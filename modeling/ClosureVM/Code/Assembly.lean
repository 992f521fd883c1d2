import ClosureVM.Code.Instruction
import ClosureVM.Text.Blank

/-! Written code: an instruction a line, with an offset in front that does not count. -/
namespace ClosureVM.Code

/-- A word of digits in front is an offset. -/
def dropOffset : List (List Char) → List (List Char)
  | [] => []
  | word :: words => if word.all Text.isDigit then words else word :: words

/-- The bytes of one line; none if it is blank. -/
def assembleLine (line : List Char) : Except CodeError (List UInt8) :=
  match Text.words line with
  | [] => .ok []
  | words =>
    match dropOffset words with
    | [] => .error (.missingMnemonic line)
    | word :: words =>
      match Opcode.ofName? (String.ofList word) with
      | none => .error (.unknownMnemonic (String.ofList word))
      | some op =>
        match words.mapM Text.readInt? with
        | none => .error (.invalidOperand line)
        | some operands => op.encode (operands.map .int)

/-- The bytes of all lines; the first faulty line is the one reported. -/
def assemble (text : String) : Except CodeError Code :=
  (Text.lines text.toList).foldlM (fun code line => return code ++ (← assembleLine line)) #[]

end ClosureVM.Code
