import ClosureVM.Value.Basic

/-! What stops a running program. -/
namespace ClosureVM

inductive Fault
  | stackUnderflow
  | returnOutsideFunction
  | unknownBuiltin (index : Nat)
  | badCode (e : CodeError)
  | negation (operand : Kind)
  | operandKinds (left right : Kind)
  | stringOperator (op : Opcode)
  | integerOperator (op : Opcode)
  | comparison (left right : Kind)
  | hashKey (key : Kind)
  | indexing (left : Kind)
  | calling (callee : Kind)
  | notFunction (constant : Kind)
  | lenArgument (argument : Kind)
  | arrayArgument (callee : Builtin) (argument : Kind)
  | arity (want got : Int)
  | integerOverflow (value : Int)
  | divisionByZero
  | stackOverflow
  | frameOverflow (max : Int)
  | stepLimit (max : Int)
  deriving DecidableEq, Repr

def Fault.message : Fault → String
  | stackUnderflow => "stack underflow"
  | returnOutsideFunction => "return outside of function"
  | unknownBuiltin index => s!"unknown builtin index: {index}"
  | badCode e => e.message
  | negation operand => s!"unsupported type for negation: {operand.label}"
  | operandKinds left right =>
    s!"unsupported types for binary operation: {left.label} {right.label}"
  | stringOperator op => s!"unknown string operator: {op.name}"
  | integerOperator op => s!"unknown integer operator: {op.name}"
  | comparison left right => s!"unknown operator: {left.label} > {right.label}"
  | hashKey key => s!"unusable as hash key: {key.label}"
  | indexing left => s!"index operator not supported: {left.label}"
  | calling callee => s!"calling non-function and non-built-in: {callee.label}"
  | notFunction constant => s!"not a function: {constant.label}"
  | lenArgument argument => s!"argument to `len` not supported, got {argument.label}"
  | arrayArgument callee argument =>
    s!"argument to `{callee.name}` must be ARRAY, got {argument.label}"
  | arity want got => s!"wrong number of arguments: want={want}, got={got}"
  | integerOverflow value => s!"integer overflow: {value}"
  | divisionByZero => "division by zero"
  | stackOverflow => "stack overflow"
  | frameOverflow max => s!"frame overflow (max {max} frames)"
  | stepLimit max => s!"step limit exceeded ({max})"

/-- What ends an operation early: an error of the program, code that cannot be read, a place
that does not exist, or an error that cannot be put in words. -/
inductive Stop
  | fault (f : Fault)
  | malformed (e : CodeError)
  | outOfRange
  | unwritable
  deriving DecidableEq, Repr

end ClosureVM
