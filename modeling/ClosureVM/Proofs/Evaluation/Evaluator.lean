import ClosureVM.Compiler.Generate
import ClosureVM.Proofs.Evaluation.Datum

/-! An evaluator that walks program trees. A name stands for the binding made last before it, in
the order of evaluation, in its function or else around it. Every `let` makes a new binding, also
one that is skipped, which then reads as `null`. -/
namespace ClosureVM

/-- What an evaluation goes through: the bindings in scope, the value of the last expression
statement, the lines written, and the next identity. -/
structure Progress where
  scope : Bindings
  result : Datum := .null
  written : List String := []
  fresh : Nat

/-- Why an evaluation leaves a tree early. `meaningless` are trees that are no programs. -/
inductive Interrupt
  | returned (d : Datum)
  | stopped (s : Stop)
  | tooDeep
  | meaningless

abbrev EvalM := EStateM Interrupt Progress

mutual

/-- The names that are bound in a tree outside of function literals, in the order of
evaluation. -/
def Node.lets : Node → List String
  | .program _ statements | .block _ statements => letsOfAll statements
  | .letStmt _ target value => value.lets ++ target.name?.toList
  | .returnStmt _ value => letsOfOption value
  | .exprStmt _ expr => expr.lets
  | .unary _ _ right => right.lets
  | .binary _ left op right => if op = "<" then right.lets ++ left.lets else left.lets ++ right.lets
  | .ifExpr _ condition consequence alternative =>
    condition.lets ++ letsOfOption consequence ++ letsOfOption alternative
  | .call _ callee args => callee.lets ++ letsOfAll args
  | .arrayLit _ elements => letsOfAll elements
  | .hashLit _ pairs => letsOfPairs pairs
  | .index _ left sub => left.lets ++ sub.lets
  | _ => []

def letsOfOption : Option Node → List String
  | none => []
  | some node => node.lets

def letsOfAll : List Node → List String
  | [] => []
  | node :: rest => node.lets ++ letsOfAll rest

def letsOfPairs : List (Node × Node) → List String
  | [] => []
  | (key, value) :: rest => key.lets ++ value.lets ++ letsOfPairs rest

end

mutual

/-- A block without any other statement inside. -/
def Node.isIdle : Node → Bool
  | .block _ statements => allIdle statements
  | _ => false

def allIdle : List Node → Bool
  | [] => true
  | node :: rest => node.isIdle && allIdle rest

end

namespace EvalM

def stop {α : Type} (s : Stop) : EvalM α := throw (.stopped s)

def lift {α : Type} : Except Stop α → EvalM α
  | .ok a => pure a
  | .error s => stop s

/-- What is given, or else the tree means nothing. -/
def need {α : Type} : Option α → EvalM α
  | some a => pure a
  | none => throw .meaningless

def identity : EvalM Nat := do
  let p ← get
  set { p with fresh := p.fresh + 1 }
  return p.fresh

def bindName (name : String) (d : Datum) : EvalM Unit :=
  modify fun p => { p with scope := (name, d) :: p.scope }

/-- Passes over bindings. -/
def skip (names : List String) : EvalM Unit := names.forM (bindName · .null)

/-- The end of an expression statement whose value is not used. -/
def drop (d : Datum) : EvalM Datum := do
  modify fun p => { p with result := d }
  return .null

def makeClosure (params : List Node) (body : Node) (name : Option String) : EvalM Datum := do
  let scope := (← get).scope
  return .closure (← identity) params body name scope

def callBuiltin (b : Builtin) (args : List Datum) : EvalM Datum := do
  let (d, lines) ← lift ((b.applyTo (← identity) args).mapError .fault)
  modify fun p => { p with written := p.written ++ lines }
  return d

def unary (op : String) (d : Datum) : EvalM Datum := do
  lift ((← need (Datum.unaryOperator? op)) d)

def operate (op : String) (left right : Datum) : EvalM Datum := do
  lift ((← need (Datum.binaryOperator? op)) left right)

/-- Runs a function in a scope of its own. Whatever comes of it, the caller goes on in its own. -/
def within (scope : Bindings) (body : EvalM Datum) : EvalM Datum := fun p =>
  match body { p with scope } with
  | .ok d p' | .error (.returned d) p' => .ok d { p' with scope := p.scope, result := p.result }
  | .error e p' => .error e { p' with scope := p.scope, result := p.result }

end EvalM

open EvalM

section

variable (call : Datum → List Datum → EvalM Datum)

mutual

/-- With `keep`, the value of a last expression statement is the value of the statement. -/
def evalStmt (keep : Bool) : Node → EvalM Datum
  | .exprStmt _ expr => do
    let d ← evalExpr expr
    if keep then return d else drop d
  | .letStmt _ target (.fnLit _ params body name) => do
    let target ← need target.name?
    bindName target (← makeClosure params body (bindingName target name))
    return .null
  | .letStmt _ target value => do
    let target ← need target.name?
    bindName target (← evalExpr value)
    return .null
  | .returnStmt _ value => do throw (.returned (← evalResult value))
  | .block _ statements => evalStmts keep statements
  | _ => throw .meaningless

def evalResult : Option Node → EvalM Datum
  | none => return .null
  | some value => evalExpr value

def evalStmts (keep : Bool) : List Node → EvalM Datum
  | [] => return .null
  | node :: rest =>
    if allIdle rest then evalStmt keep node
    else do
      discard (evalStmt false node)
      evalStmts keep rest

/-- The value of a branch, `null` if it is left out. -/
def evalBranch : Option Node → EvalM Datum
  | none => return .null
  | some (.block _ statements) | some (.program _ statements) => evalStmts true statements
  | _ => throw .meaningless

def evalExpr : Node → EvalM Datum
  | .intLit _ (.int n) => return .int n
  | .strLit _ s => return .str s
  | .boolLit _ b => return .bool b
  | .ident _ name => do need ((← get).scope.lookup name)
  | .unary _ op right => do unary op (← evalExpr right)
  | .binary _ left op right =>
    if op = "<" then do
      let r ← evalExpr right
      let l ← evalExpr left
      operate op l r
    else do
      let l ← evalExpr left
      let r ← evalExpr right
      operate op l r
  | .ifExpr _ condition consequence alternative => do
    if (← evalExpr condition).truthy then
      let d ← evalBranch consequence
      skip (letsOfOption alternative)
      return d
    else
      skip (letsOfOption consequence)
      evalBranch alternative
  | .fnLit _ params body name => makeClosure params body name
  | .call _ callee args => do
    let f ← evalExpr callee
    call f (← evalExprs args)
  | .arrayLit _ elements => do
    let ds ← evalExprs elements
    return .array (← identity) ds
  | .hashLit _ pairs => do
    let entries ← lift ((Datum.entriesOf [] (← evalPairs pairs)).mapError .fault)
    return .hash (← identity) entries
  | .index _ left sub => do
    let l ← evalExpr left
    lift ((l.index (← evalExpr sub)).mapError .fault)
  | _ => throw .meaningless

def evalExprs : List Node → EvalM (List Datum)
  | [] => return []
  | node :: rest => do
    let d ← evalExpr node
    return d :: (← evalExprs rest)

def evalPairs : List (Node × Node) → EvalM (List (Datum × Datum))
  | [] => return []
  | (key, value) :: rest => do
    let k ← evalExpr key
    let d ← evalExpr value
    return (k, d) :: (← evalPairs rest)

end

end

/-- The bindings inside a function: its parameters, its own name, and what is around it. -/
def Datum.inner (self : Datum) (name : Option String) (names : List String) (args : List Datum)
    (scope : Bindings) : Bindings :=
  (names.zip args).reverse ++ ((given? name).map (·, self)).toList ++ scope

/-- Calls functions to a depth of at most `depth`. -/
def Datum.call : Nat → Datum → List Datum → EvalM Datum
  | _, .builtin b, args => callBuiltin b args
  | depth, self@(.closure _ params body name scope), args =>
    if (args.length : Int) ≠ params.length then
      stop (.fault (.arity params.length args.length))
    else
      match depth with
      | 0 => throw .tooDeep
      | depth + 1 => do
        let names ← need (params.mapM Node.name?)
        within (self.inner name names args scope) (evalBranch (Datum.call depth) (some body))
  | _, d, _ => stop (.fault (.calling d.kind))

/-- The bindings of a new program. -/
def Bindings.builtins : Bindings := (Builtin.all.map fun b => (b.name, .builtin b)).reverse

/-- Evaluates a program with new bindings. -/
def Node.evaluate (depth fresh : Nat) : Node → EStateM.Result Interrupt Progress Datum
  | .program _ statements =>
    evalStmts (Datum.call depth) false statements { scope := .builtins, fresh }
  | _ => .error .meaningless { scope := .builtins, fresh }

end ClosureVM
