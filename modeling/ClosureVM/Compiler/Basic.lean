import ClosureVM.Compiler.Emission
import ClosureVM.Image
import ClosureVM.Symbol.Environment

/-! The state of a compilation and the steps that write code. -/
namespace ClosureVM

/-- `outer` holds the unfinished code of the enclosing functions, one for each table that
encloses the current one. -/
structure Compiler where
  constants : Array Value := #[]
  env : Environment := {}
  emission : Emission := {}
  outer : List Emission := []
  deriving Inhabited

/-- What was done before an error stays done. -/
abbrev CompileM := EStateM CompileStop Compiler

namespace Compiler

/-- Starts the code of a program afresh; constants and globals stay. -/
def restart (c : Compiler) : Compiler :=
  { constants := c.constants, env := { global := c.env.global } }

/-- Takes back what was done since `mark`: no constants but the first ones stay, and names stand
for what they stood for. -/
def rollback (c mark : Compiler) : Compiler :=
  { constants := c.constants.take mark.constants.size, env := { global := mark.env.global } }

def image (c : Compiler) : Image := ⟨c.emission.code, c.constants⟩

end Compiler

namespace CompileM

def fail {α : Type} (cause : CompileCause) (line : Line := none) : CompileM α :=
  throw (.error ⟨cause, line⟩)

def need {α : Type} (what : Missing) : Option α → CompileM α
  | some a => pure a
  | none => throw (.missing what)

def emission : CompileM Emission := return (← get).emission

def position : CompileM Nat := return (← emission).code.size

def modifyEmission (f : Emission → Emission) : CompileM Unit :=
  modify fun c => { c with emission := f c.emission }

section

variable {α : Type} (c : Compiler)

@[simp] theorem need_some (what : Missing) (a : α) : need what (some a) c = .ok a c := rfl

@[simp] theorem need_none (what : Missing) :
    (need what none : CompileM α) c = .error (.missing what) c := rfl

@[simp] theorem emission_apply : emission c = .ok c.emission c := rfl

@[simp] theorem position_apply : position c = .ok c.emission.code.size c := rfl

@[simp] theorem modifyEmission_apply (f : Emission → Emission) :
    modifyEmission f c = .ok () { c with emission := f c.emission } := rfl

end

/-- Adds bytes that are not recorded as an instruction, and returns their position. -/
def append (bytes : List UInt8) : CompileM Nat :=
  modifyGet fun c => (c.emission.code.size, { c with emission := c.emission.append bytes })

/-- Writes an instruction and returns its position. -/
def emitOperands (op : Opcode) (operands : List Numeral) : CompileM Nat :=
  match op.encode operands with
  | .error e => fail (.encoding e)
  | .ok bytes =>
    modifyGet fun c => (c.emission.code.size, { c with emission := c.emission.emit op bytes })

def emitAt (op : Opcode) (operands : List Int) : CompileM Nat :=
  emitOperands op (operands.map .int)

def emit (op : Opcode) (operands : List Int := []) : CompileM Unit :=
  discard (emitAt op operands)

/-- Writes an instruction given by its code. -/
def emitCode (code : Int) (operands : List Numeral) : CompileM Nat :=
  match Opcode.ofCode? code with
  | none => fail (.encoding (.undefinedOpcode code))
  | some op => emitOperands op operands

def addConstant (v : Value) : CompileM Nat :=
  modifyGet fun c => (c.constants.size, { c with constants := c.constants.push v })

/-- A function in the pool has its place there as its identity. -/
def addFunction (f : (id : Nat) → Prototype) : CompileM Nat :=
  modifyGet fun c =>
    (c.constants.size, { c with constants := c.constants.push (.function (f c.constants.size)) })

/-- Changes the last recorded instruction, which must exist. -/
def editLast (f : Emission → Emission) : CompileM Unit := do
  discard (need .instruction (← emission).last)
  modifyEmission f

def removeLast : CompileM Unit := editLast Emission.removeLast

def returnLast : CompileM Unit := editLast Emission.returnLast

def replace (position : Int) (bytes : List UInt8) : CompileM Unit :=
  modifyEmission fun em => { em with code := em.code.replace position bytes }

/-- Gives the instruction at `position` a new operand. -/
def patch (position : Int) (operand : Numeral) : CompileM Unit := do
  let byte ← need .position ((← emission).code.at? position)
  let op ← need .opcode (Opcode.ofByte? byte)
  match op.encode [operand] with
  | .error e => fail (.encoding e)
  | .ok bytes => replace position bytes

/-- Lets a jump go to the end of the code written so far. -/
def patchHere (jump : Nat) : CompileM Unit := do patch jump (.int (← position))

def enterScope : CompileM Unit :=
  modify fun c =>
    { c with env := c.env.enter, emission := {}, outer := c.emission :: c.outer }

/-- Goes back to the enclosing function and returns the code that was written. -/
def leaveScope : CompileM Code := do
  let c ← get
  match c.outer with
  | [] => throw (.missing .scope)
  | em :: outer =>
    set { c with env := c.env.leave, emission := em, outer }
    return c.emission.code

def define (name : String) : CompileM Symbol :=
  modifyGet fun c => let (s, env) := c.env.define name; (s, { c with env })

def defineFunctionName (name : String) : CompileM Unit :=
  modify fun c => { c with env := c.env.defineFunctionName name }

def resolve (name : String) (line : Line) : CompileM Symbol := do
  match (← get).env.resolve? name with
  | none => fail (.undefinedVariable name) line
  | some (s, env) => modify fun c => { c with env }; return s

/-- Puts the value of a symbol on the stack. -/
def load (s : Symbol) : CompileM Unit :=
  match s.storage with
  | .global => emit .getGlobal [s.index]
  | .frame => emit .getLocal [s.index]
  | .builtin => emit .getBuiltin [s.index]
  | .free => emit .getFree [s.index]
  | .self => emit .currentClosure

/-- Loads a symbol whose storage is given by its label. -/
def loadLabelled (name label : String) (index : Int) : CompileM Unit :=
  match Storage.ofLabel? label with
  | none => fail (.unknownStorage label)
  | some storage => load ⟨name, storage, index⟩

/-- Takes the value on top of the stack into a variable. -/
def store (s : Symbol) : CompileM Unit :=
  match s.storage with
  | .global => emit .setGlobal [s.index]
  | _ => emit .setLocal [s.index]

end CompileM
end ClosureVM
