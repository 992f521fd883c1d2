import ClosureVM.Code.Instruction
import ClosureVM.Compiler.Error

/-! The code of one function while it is being written. -/
namespace ClosureVM

/-- An instruction that was written, and where. -/
structure Emitted where
  op : Opcode
  position : Nat
  deriving DecidableEq, Repr

/-- The record before the last one. Once the last instruction is removed, both stand for the
same instruction, so that a change of one changes the other. -/
inductive Earlier
  | recorded (e : Option Emitted)
  | sameAsLast
  deriving DecidableEq, Repr

structure Emission where
  code : Code := #[]
  last : Option Emitted := none
  earlier : Earlier := .recorded none
  deriving DecidableEq, Repr

namespace Code

/-- Writes bytes over those at `position`; where the code ends they are added to it. -/
def overwrite (code : Code) (position : Nat) : List UInt8 → Code
  | [] => code
  | b :: rest =>
    if h : position < code.size then overwrite (code.set position b) (position + 1) rest
    else overwrite (code.push b) (position + 1) rest

/-- Puts bytes in the place of as many from a signed position on. If the end of that place comes
before its start, they are put in front of its start. -/
def replace (code : Code) (position : Int) (bytes : List UInt8) : Code :=
  if 0 ≤ position then code.overwrite position.toNat bytes
  else
    let lo := bound code.size position
    let hi := max lo (bound code.size (position + bytes.length))
    code.extract 0 lo ++ bytes ++ code.extract hi code.size

end Code

namespace Emission

def previous (em : Emission) : Option Emitted :=
  match em.earlier with
  | .recorded e => e
  | .sameAsLast => em.last

def append (em : Emission) (bytes : List UInt8) : Emission :=
  { em with code := em.code ++ bytes }

/-- Adds an instruction and records it. -/
def emit (em : Emission) (op : Opcode) (bytes : List UInt8) : Emission :=
  let last := some ⟨op, em.code.size⟩
  let earlier := .recorded em.last
  { code := em.code ++ bytes, last, earlier }

/-- Whether the last recorded instruction is an `op`. -/
def lastIs (em : Emission) (op : Opcode) : Bool :=
  !em.code.isEmpty && em.last.any (·.op = op)

/-- Whether the last recorded instruction is an `op` at `start` or behind it. -/
def lastIsFrom (em : Emission) (op : Opcode) (start : Nat) : Bool :=
  em.lastIs op && em.last.any (start ≤ ·.position)

/-- Drops the last recorded instruction, if there is one, and what follows it. -/
def removeLast (em : Emission) : Emission :=
  match em.last, em.previous with
  | none, _ => em
  | some e, last => { code := em.code.shrink e.position, last, earlier := .sameAsLast }

/-- Turns the last recorded instruction, if there is one, into one that returns the value on
top. -/
def returnLast (em : Emission) : Emission :=
  match em.last with
  | none => em
  | some e =>
    { em with
      code := em.code.overwrite e.position [Opcode.returnValue.code]
      last := some { e with op := .returnValue } }

end Emission
end ClosureVM
