import ClosureVM.Machine.Slots
import ClosureVM.Value.Fault

/-! The state of a machine that runs code. -/
namespace ClosureVM

/-- The bounds within which a program runs. -/
structure Limits where
  stackSize : Int := 2048
  maxFrames : Int := 1024
  maxSteps : Option Int := none
  deriving DecidableEq, Repr

/-- How many globals a program can have. -/
def numGlobals : Nat := 65536

/-- A running call: the closure, the next instruction, and the stack place of the first
argument. -/
structure Frame where
  id : Nat
  proto : Prototype
  free : List Value := []
  ip : Nat := 0
  base : Int := 0
  deriving Inhabited

namespace Frame

def code (fr : Frame) : Code := fr.proto.code

def closure (fr : Frame) : Value := .closure fr.id fr.proto fr.free

end Frame

/-- A line of output. -/
inductive Output
  | puts (text : String)
  | trace (text : String)
  deriving DecidableEq, Repr

def Output.text : Output → String
  | puts text | trace text => text

/-- Lines of output as one text. -/
def outputText (lines : List Output) : String := String.join (lines.map (·.text ++ "\n"))

/-- `ip` is where the instruction under execution starts. Identities below `fresh` are taken. -/
structure Machine where
  constants : Array Value
  globals : Slots
  limits : Limits
  tracing : Bool
  stack : Slots
  sp : Int := 0
  ip : Nat := 0
  steps : Nat := 0
  lastPopped : Value := .null
  frame : Frame
  callers : List Frame := []
  output : Array Output := #[]
  fresh : Nat

/-- What was done before a stop stays done. -/
abbrev MachineM := EStateM Stop Machine

/-- One line of a stack trace: a function and where it stands, as far as they are known. -/
structure Call where
  name : Option String
  ip : Option Numeral
  deriving DecidableEq, Repr

namespace Machine

/-- The identity of the closure that is the program itself; all others are greater. -/
def mainId : Nat := 0

/-- A machine about to run a program. -/
def new (code : Code) (constants : Array Value) (globals : Slots) (limits : Limits := {})
    (tracing : Bool := false) (fresh : Nat := mainId + 1) : Machine :=
  { constants, globals, limits, tracing, fresh
    stack := { size := limits.stackSize.toNat }
    frame := { id := mainId, proto := { id := constants.size, code, name := some "<main>" } } }

def depth (m : Machine) : Nat := m.callers.length + 1

/-- The calls in progress, innermost first. A caller stands behind the two bytes of its call
instruction. -/
def stackTrace (m : Machine) : List Call :=
  ⟨m.frame.proto.name, some (.int m.ip)⟩ ::
    m.callers.map fun fr => ⟨fr.proto.name, some (.int (fr.ip - 2))⟩

end Machine
end ClosureVM
