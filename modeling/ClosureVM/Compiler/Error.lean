import ClosureVM.Node.Basic

/-! Why a program tree has no code. -/
namespace ClosureVM

inductive CompileCause
  | notProgram
  | encoding (e : CodeError)
  | returnOutsideFunction
  | unknownStatement (kind : String)
  | unknownExpression (kind : String)
  | literalRange (value : Numeral)
  | undefinedVariable (name : String)
  | unknownOperator (op : String)
  | unknownStorage (label : String)
  deriving DecidableEq, Repr

def CompileCause.message : CompileCause → String
  | notProgram => "Compiler expects a Program node at the top"
  | encoding e => e.message
  | returnOutsideFunction => "return used outside of a function"
  | unknownStatement kind => s!"Unknown statement node: {kind}"
  | unknownExpression kind => s!"Unknown expression node: {kind}"
  | literalRange value => s!"integer literal out of range: {value.text}"
  | undefinedVariable name => s!"undefined variable {name}"
  | unknownOperator op => s!"unknown operator {op}"
  | unknownStorage label => s!"Unknown symbol scope: {label}"

/-- A cause and the line of the node it was found at. -/
structure CompileError where
  cause : CompileCause
  line : Line := none
  deriving DecidableEq, Repr

/-- What a step of the compiler needs and does not find: a recorded instruction, an opcode at a
position, the position itself, an enclosing scope, statements in a block, a name, or the numeral
of an integer with too many digits. -/
inductive Missing
  | instruction
  | opcode
  | position
  | scope
  | statements
  | name
  | numeral
  deriving DecidableEq, Repr

/-- An error in the program is reported; if something is missing, compilation just breaks
off. -/
inductive CompileStop
  | error (e : CompileError)
  | missing (what : Missing)
  deriving DecidableEq, Repr

end ClosureVM
