import ClosureVM.Code.Opcode
import ClosureVM.Text.Quoted

/-! What can be wrong with an instruction, in bytes or in writing. -/
namespace ClosureVM

/-- What stands where an integer is wanted: an integer, or some other text. -/
inductive Numeral
  | int (value : Int)
  | other (text : String)
  deriving DecidableEq, Repr

def Numeral.text : Numeral → String
  | .int value => toString value
  | .other text => text

inductive CodeError
  | undefinedOpcode (code : Int)
  | unknownMnemonic (name : String)
  | operandCount (op : Opcode) (given : Nat)
  | operandRange (op : Opcode) (operand : Numeral) (width : Nat)
  | truncated (op : Opcode) (offset : Nat)
  | missingMnemonic (line : List Char)
  | invalidOperand (line : List Char)
  deriving DecidableEq, Repr

def CodeError.message : CodeError → String
  | .undefinedOpcode code => s!"opcode {code} undefined"
  | .unknownMnemonic name => s!"unknown mnemonic: {name}"
  | .operandCount op given =>
    s!"{op.name}: operand len {given} does not match defined {op.widths.length}"
  | .operandRange op operand width =>
    s!"{op.name}: operand {operand.text} does not fit in {width} byte(s)"
  | .truncated op offset => s!"truncated {op.name} at offset {offset}"
  | .missingMnemonic line => s!"missing mnemonic: {Text.quoted line}"
  | .invalidOperand line => s!"invalid operand: {Text.quoted line}"

end ClosureVM
