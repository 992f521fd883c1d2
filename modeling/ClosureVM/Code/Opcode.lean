/-! The instruction set: mnemonics, operand widths and opcode bytes. -/
namespace ClosureVM

inductive Opcode
  | constant
  | add
  | sub
  | mul
  | div
  | pop
  | pushTrue
  | pushFalse
  | pushNull
  | equal
  | notEqual
  | greaterThan
  | minus
  | bang
  | jumpNotTruthy
  | jump
  | getGlobal
  | setGlobal
  | getLocal
  | setLocal
  | getBuiltin
  | getFree
  | currentClosure
  | array
  | hash
  | index
  | call
  | returnValue
  | returnNull
  | closure
  deriving DecidableEq, Repr, Inhabited

namespace Opcode

/-- Every opcode, at the position of its code. -/
def all : List Opcode :=
  [constant, add, sub, mul, div, pop, pushTrue, pushFalse, pushNull, equal, notEqual,
    greaterThan, minus, bang, jumpNotTruthy, jump, getGlobal, setGlobal, getLocal, setLocal,
    getBuiltin, getFree, currentClosure, array, hash, index, call, returnValue, returnNull,
    closure]

def code : Opcode → UInt8
  | constant => 0
  | add => 1
  | sub => 2
  | mul => 3
  | div => 4
  | pop => 5
  | pushTrue => 6
  | pushFalse => 7
  | pushNull => 8
  | equal => 9
  | notEqual => 10
  | greaterThan => 11
  | minus => 12
  | bang => 13
  | jumpNotTruthy => 14
  | jump => 15
  | getGlobal => 16
  | setGlobal => 17
  | getLocal => 18
  | setLocal => 19
  | getBuiltin => 20
  | getFree => 21
  | currentClosure => 22
  | array => 23
  | hash => 24
  | index => 25
  | call => 26
  | returnValue => 27
  | returnNull => 28
  | closure => 29

/-- The opcode with a given code, of any integer. -/
def ofCode? (n : Int) : Option Opcode := if n < 0 then none else all[n.toNat]?

def ofByte? (b : UInt8) : Option Opcode := all[b.toNat]?

theorem ofByte?_code (op : Opcode) : ofByte? op.code = some op := by cases op <;> rfl

/-- The mnemonic. -/
def name : Opcode → String
  | constant => "OpConstant"
  | add => "OpAdd"
  | sub => "OpSub"
  | mul => "OpMul"
  | div => "OpDiv"
  | pop => "OpPop"
  | pushTrue => "OpTrue"
  | pushFalse => "OpFalse"
  | pushNull => "OpNull"
  | equal => "OpEqual"
  | notEqual => "OpNotEqual"
  | greaterThan => "OpGreaterThan"
  | minus => "OpMinus"
  | bang => "OpBang"
  | jumpNotTruthy => "OpJumpNotTruthy"
  | jump => "OpJump"
  | getGlobal => "OpGetGlobal"
  | setGlobal => "OpSetGlobal"
  | getLocal => "OpGetLocal"
  | setLocal => "OpSetLocal"
  | getBuiltin => "OpGetBuiltin"
  | getFree => "OpGetFree"
  | currentClosure => "OpCurrentClosure"
  | array => "OpArray"
  | hash => "OpHash"
  | index => "OpIndex"
  | call => "OpCall"
  | returnValue => "OpReturnValue"
  | returnNull => "OpReturn"
  | closure => "OpClosure"

def ofName? (s : String) : Option Opcode := all.find? (·.name == s)

/-- The width of each operand in bytes. -/
def widths : Opcode → List Nat
  | constant | jumpNotTruthy | jump | getGlobal | setGlobal | array | hash => [2]
  | getLocal | setLocal | getBuiltin | getFree | call => [1]
  | closure => [2, 1]
  | _ => []

/-- The length of an instruction: the opcode byte and its operands. -/
def size (op : Opcode) : Nat := op.widths.foldl (· + ·) 1

theorem size_pos (op : Opcode) : 0 < op.size := by cases op <;> decide

/-- The table entry as shown to a reader. -/
def describe (op : Opcode) : String :=
  let widths := String.intercalate ", " (op.widths.map toString)
  s!"Definition('{op.name}', [{widths}])"

end Opcode
end ClosureVM
