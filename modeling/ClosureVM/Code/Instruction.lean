import ClosureVM.Code.Error
import ClosureVM.SignedIndex
import ClosureVM.Text.Decimal

/-! Instructions as bytes: big-endian operands behind an opcode byte. -/
namespace ClosureVM

abbrev Code := Array UInt8

structure Instruction where
  op : Opcode
  operands : List Nat
  deriving DecidableEq, Repr

namespace Instruction

def size (ins : Instruction) : Nat := ins.op.size

end Instruction

/-- The `width` lowest bytes of `n`, highest first. -/
def bigEndian : (width n : Nat) → List UInt8
  | 0, _ => []
  | width + 1, n => UInt8.ofNat (n / Nat.pow 256 width) :: bigEndian width n

/-- The number that the bytes spell, highest first. -/
def ofBigEndian (bytes : List UInt8) : Nat := bytes.foldl (fun n b => 256 * n + b.toNat) 0

@[simp] theorem length_bigEndian (width n : Nat) : (bigEndian width n).length = width := by
  induction width with
  | zero => rfl
  | succ width ih => simp [bigEndian, ih]

namespace Opcode

/-- The bytes of one operand, if it is an integer that fits. -/
def operandBytes (op : Opcode) (width : Nat) : Numeral → Except CodeError (List UInt8)
  | .int n =>
    if 0 ≤ n ∧ n < Int.pow 256 width then .ok (bigEndian width n.toNat)
    else .error (.operandRange op (.int n) width)
  | operand => .error (.operandRange op operand width)

/-- The operands in turn; the first that does not fit is the one reported. -/
def operandsBytes (op : Opcode) : (widths : List Nat) → List Numeral → Except CodeError (List UInt8)
  | width :: widths, operand :: operands => do
    let bytes ← op.operandBytes width operand
    return bytes ++ (← op.operandsBytes widths operands)
  | _, _ => .ok []

/-- An instruction as bytes. -/
def encode (op : Opcode) (operands : List Numeral) : Except CodeError (List UInt8) :=
  if operands.length = op.widths.length then
    return op.code :: (← op.operandsBytes op.widths operands)
  else .error (.operandCount op operands.length)

/-- An instruction in writing, from operands already written. -/
def format (op : Opcode) (operands : List String) : String :=
  if operands.length = op.widths.length then
    String.intercalate " " (op.name :: operands)
  else s!"ERROR: operand len {operands.length} does not match defined {op.widths.length}"

end Opcode

namespace Instruction

def text (ins : Instruction) : String := ins.op.format (ins.operands.map toString)

/-- The bytes of an instruction that is given by the code of its opcode. -/
def encode (code : Int) (operands : List Numeral) : Except CodeError (List UInt8) :=
  match Opcode.ofCode? code with
  | none => .error (.undefinedOpcode code)
  | some op => op.encode operands

end Instruction

namespace Code

def at? (code : Code) (i : Int) : Option UInt8 := (place? code.size i).bind (code[·]?)

/-- The bytes between two positions; there are none if the first is not before the second. -/
def slice (code : Code) (lo hi : Int) : List UInt8 :=
  (code.extract (bound code.size lo) (bound code.size hi)).toList

/-- The number in the `width` bytes at `start`; bytes past the end are left out. -/
def readOperand (code : Code) (start : Int) (width : Nat) : Nat :=
  ofBigEndian (code.slice start (start + width))

/-- The number in the `width` bytes at `start`, if all of them exist. -/
def readOperand? (code : Code) (start : Int) (width : Nat) : Option Nat :=
  ((List.range width).mapM fun i : Nat => code.at? (start + i)).map ofBigEndian

/-- Operands of the given widths, one behind the other. -/
def readOperands (code : Code) (start : Int) : (widths : List Nat) → List Nat
  | [] => []
  | width :: widths => code.readOperand start width :: readOperands code (start + width) widths

/-- The instruction of opcode `op` at `offset`, read as far as the bytes go. -/
def instructionAt (code : Code) (op : Opcode) (offset : Nat) : Instruction :=
  ⟨op, code.readOperands (offset + 1 : Nat) op.widths⟩

end Code
end ClosureVM
