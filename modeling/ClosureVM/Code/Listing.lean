import ClosureVM.Code.Instruction

/-! Code read from its first byte to its last, one instruction behind the other. -/
namespace ClosureVM

structure Located where
  offset : Nat
  instruction : Instruction
  deriving DecidableEq, Repr

def Located.text (l : Located) : String := s!"{Text.padded 4 l.offset} {l.instruction.text}"

/-- The instructions up to the end of the code, or up to what cannot be read. -/
structure Listing where
  items : Array Located
  error : Option CodeError
  deriving DecidableEq, Repr

namespace Code

/-- The whole instruction at an offset that holds the byte `b`. -/
def decode (code : Code) (offset : Nat) (b : UInt8) : Except CodeError Instruction :=
  match Opcode.ofByte? b with
  | none => .error (.undefinedOpcode b.toNat)
  | some op =>
    if offset + op.size ≤ code.size then .ok (code.instructionAt op offset)
    else .error (.truncated op offset)

def listingFrom (code : Code) (offset : Nat) (items : Array Located) : Listing :=
  if h : offset < code.size then
    match code.decode offset code[offset] with
    | .error e => ⟨items, some e⟩
    | .ok ins => code.listingFrom (offset + ins.size) (items.push ⟨offset, ins⟩)
  else ⟨items, none⟩
termination_by code.size - offset
decreasing_by
  have := ins.op.size_pos
  unfold Instruction.size
  omega

def listing (code : Code) : Listing := code.listingFrom 0 #[]

/-- One line for each instruction. -/
def disassembly (code : Code) : Except CodeError (List String) :=
  match code.listing with
  | ⟨items, none⟩ => .ok (items.toList.map Located.text)
  | ⟨_, some e⟩ => .error e

def disassemble (code : Code) : Except CodeError String :=
  return String.join ((← code.disassembly).map (· ++ "\n"))

end Code
end ClosureVM
