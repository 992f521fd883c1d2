import ClosureVM.Compiler.Basic
import ClosureVM.Value.Operation

/-! The code of statements and expressions. -/
namespace ClosureVM

open CompileM

/-- The placeholder target of a jump that is patched later. -/
def unpatched : Int := 9999

def unaryOpcode? : String → Option Opcode
  | "!" => some .bang
  | "-" => some .minus
  | _ => none

def binaryOpcode? : String → Option Opcode
  | "+" => some .add
  | "-" => some .sub
  | "*" => some .mul
  | "/" => some .div
  | "==" => some .equal
  | "!=" => some .notEqual
  | ">" => some .greaterThan
  | _ => none

/-- A branch leaves one value: that of its last statement if it is an expression, else `null`. -/
def compileBranch (body : CompileM Unit) : CompileM Unit := do
  let start ← position
  body
  if (← emission).lastIsFrom .pop start then removeLast else emit .pushNull

def compileIf (condition consequence alternative : CompileM Unit) : CompileM Unit := do
  condition
  let toAlternative ← emitAt .jumpNotTruthy [unpatched]
  compileBranch consequence
  let toEnd ← emitAt .jump [unpatched]
  patchHere toAlternative
  compileBranch alternative
  patchHere toEnd

/-- A function returns the value of its last expression statement, or `null`. -/
def compileReturn : CompileM Unit := do
  if (← emission).lastIs .pop then returnLast
  unless (← emission).lastIs .returnValue do emit .returnNull

def nameOf (node : Node) : CompileM String := need .name node.name?

/-- Writes the body in a scope of its own, then in the enclosing one loads what it captures. -/
def compileFunction (name : Option String) (params : List Node) (body : CompileM Unit) :
    CompileM Unit := do
  enterScope
  if let some name := given? name then defineFunctionName name
  params.forM fun param => do discard (define (← nameOf param))
  body
  compileReturn
  let table := (← get).env.current
  let code ← leaveScope
  table.free.forM load
  let i ← addFunction fun id =>
    { id, code, numLocals := table.numDefinitions, numParams := params.length, name }
  emit .closure [i, table.free.length]

/-- A function literal without a name takes that of the variable it is bound to. -/
def bindingName (target : String) (name : Option String) : Option String :=
  if (given? name).isNone && target != "" then some target else name

/-- A literal out of range is reported with its numeral, if it can be written. -/
def outOfRange (line : Line) : Numeral → CompileStop
  | .int n =>
    if Text.isWritable n then .error ⟨.literalRange (.int n), line⟩ else .missing .numeral
  | value => .error ⟨.literalRange value, line⟩

def compileLiteral (line : Line) : Numeral → CompileM Unit
  | .int n =>
    if IsWord n then do emit .constant [← addConstant (.int n)]
    else throw (outOfRange line (.int n))
  | value => throw (outOfRange line value)

mutual

def compileStmt : Node → CompileM Unit
  | .exprStmt _ expr => do
    compileExpr expr
    emit .pop
  | .letStmt _ target (.fnLit _ params body name) => do
    let target ← nameOf target
    compileFunction (bindingName target name) params (compileBlock body)
    store (← define target)
  | .letStmt _ target value => do
    let target ← nameOf target
    compileExpr value
    store (← define target)
  | .returnStmt line value => do
    if (← get).outer.isEmpty then fail .returnOutsideFunction line
    compileResult value
    emit .returnValue
  | .block _ statements => compileStmts statements
  | node => fail (.unknownStatement node.kind) node.line

def compileResult : Option Node → CompileM Unit
  | none => emit .pushNull
  | some value => compileExpr value

def compileStmts : List Node → CompileM Unit
  | [] => pure ()
  | node :: rest => do
    compileStmt node
    compileStmts rest

/-- The statements of a block, or of a program in its place. -/
def compileBlock : Node → CompileM Unit
  | .block _ statements | .program _ statements => compileStmts statements
  | _ => throw (.missing .statements)

/-- The statements of a branch, if there is one. -/
def compileOptional : Option Node → CompileM Unit
  | none => pure ()
  | some block => compileBlock block

def compileExpr : Node → CompileM Unit
  | .intLit line value => compileLiteral line value
  | .strLit _ value => do emit .constant [← addConstant (.str value)]
  | .boolLit _ value => emit (if value then .pushTrue else .pushFalse)
  | .ident line name => do load (← resolve name line)
  | .unary line op right => do
    compileExpr right
    match unaryOpcode? op with
    | some op => emit op
    | none => fail (.unknownOperator op) line
  | .binary line left op right =>
    if op = "<" then do
      compileExpr right
      compileExpr left
      emit .greaterThan
    else do
      compileExpr left
      compileExpr right
      match binaryOpcode? op with
      | some op => emit op
      | none => fail (.unknownOperator op) line
  | .ifExpr _ condition consequence alternative =>
    compileIf (compileExpr condition) (compileOptional consequence) (compileOptional alternative)
  | .fnLit _ params body name => compileFunction name params (compileBlock body)
  | .call _ callee args => do
    compileExpr callee
    compileExprs args
    emit .call [args.length]
  | .arrayLit _ elements => do
    compileExprs elements
    emit .array [elements.length]
  | .hashLit _ pairs => do
    compilePairs pairs
    emit .hash [pairs.length * 2]
  | .index _ left sub => do
    compileExpr left
    compileExpr sub
    emit .index
  | node => fail (.unknownExpression node.kind) node.line

def compileExprs : List Node → CompileM Unit
  | [] => pure ()
  | node :: rest => do
    compileExpr node
    compileExprs rest

def compilePairs : List (Node × Node) → CompileM Unit
  | [] => pure ()
  | (key, value) :: rest => do
    compileExpr key
    compileExpr value
    compilePairs rest

end

/-- Compiles a program to fresh code. What a program with an error did is taken back; if
compilation breaks off, what was done stays done. -/
def compileProgram (node : Node) : CompileM Code := fun c =>
  match node with
  | .program _ statements =>
    match compileStmts statements c.restart with
    | .ok _ c' => .ok c'.emission.code c'
    | .error (.error e) c' => .error (.error e) (c'.rollback c)
    | .error stop c' => .error stop c'
  | node => .error (.error ⟨.notProgram, node.line⟩) c

/-- The code and the constants of a program on its own, and how many globals it defines. -/
def Node.compile (node : Node) : Except CompileStop (Image × Nat) :=
  match compileProgram node {} with
  | .ok _ c => .ok (c.image, c.env.global.numDefinitions)
  | .error e _ => .error e

end ClosureVM
