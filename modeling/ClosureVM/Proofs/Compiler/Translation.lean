import ClosureVM.Compiler.Generate
import ClosureVM.Proofs.Code.Continuation

/-! The structured code of a program, as a relation: what a compilation writes and what it does
to constants and names, without the unfinished code of enclosing functions. -/
namespace ClosureVM

/-- The part of a compilation that programs leave behind. -/
structure Draft where
  constants : Array Value
  env : Environment

namespace Draft

def addConstant (d : Draft) (v : Value) : Draft := { d with constants := d.constants.push v }

def define (d : Draft) (name : String) : Draft := { d with env := (d.env.define name).2 }

/-- The draft inside a function, with its own name and its parameters defined. -/
def enter (d : Draft) (name : Option String) (params : List String) : Draft :=
  let env := match given? name with
    | some name => d.env.enter.defineFunctionName name
    | none => d.env.enter
  { d with env := params.foldl (fun env param => (env.define param).2) env }

/-- The draft behind a function whose prototype goes into the pool. -/
def leave (d : Draft) (proto : Prototype) : Draft :=
  { constants := d.constants.push (.function proto), env := d.env.leave }

end Draft

namespace Symbol

/-- The instruction that puts the value of a symbol on the stack. -/
def load (s : Symbol) : Piece :=
  match s.storage with
  | .global => .op .getGlobal [s.index.toNat]
  | .frame => .op .getLocal [s.index.toNat]
  | .builtin => .op .getBuiltin [s.index.toNat]
  | .free => .op .getFree [s.index.toNat]
  | .self => .op .currentClosure

/-- The index of a symbol can be an operand, where it is one. -/
def Loadable (s : Symbol) : Prop := s.storage = .self ∨ 0 ≤ s.index

/-- The instruction that takes the value on top of the stack into a symbol's place. -/
def store (s : Symbol) : Piece :=
  match s.storage with
  | .global => .op .setGlobal [s.index.toNat]
  | _ => .op .setLocal [s.index.toNat]

end Symbol

namespace Piece

/-- Statements as the branch of a choice: the value of a last expression statement stays on the
stack, else there is `null`. -/
def asBranch (ps : List Piece) : List Piece :=
  match ps.getLast? with
  | some (.ins ⟨.pop, []⟩) => ps.dropLast
  | _ => ps ++ [.op .pushNull]

/-- Statements as the body of a function, which returns at its end. -/
def asBody (ps : List Piece) : List Piece :=
  match ps.getLast? with
  | some (.ins ⟨.pop, []⟩) => ps.dropLast ++ [.op .returnValue]
  | some (.ins ⟨.returnValue, []⟩) => ps
  | _ => ps ++ [.op .returnNull]

end Piece

namespace Node

/-- The statements of a block, or of a program in its place. -/
def statements? : Node → Option (List Node)
  | block _ statements | program _ statements => some statements
  | _ => none

/-- The statements of a branch; one that is left out has none. -/
def branchStatements? : Option Node → Option (List Node)
  | none => some []
  | some node => node.statements?

/-- The node as the value of a variable: a function literal without a name takes that of the
variable. -/
def boundTo (target : String) : Node → Node
  | fnLit line params body name => fnLit line params body (bindingName target name)
  | node => node

end Node

/-- A part of a program tree, by the place it stands in. -/
inductive Phrase
  | stmt (node : Node)
  | stmts (nodes : List Node)
  | expr (node : Node)
  | exprs (nodes : List Node)
  | pairs (pairs : List (Node × Node))

def Phrase.isStatement : Phrase → Bool
  | .stmt _ | .stmts _ => true
  | _ => false

/-- The prototype of a function whose body is `ps`, as it is put into the pool. -/
def Prototype.ofBody (d : Draft) (ps : List Piece) (params : List Node) (name : Option String) :
    Prototype :=
  { id := d.constants.size
    code := (Piece.layout 0 (Piece.asBody ps)).toArray
    numLocals := d.env.current.numDefinitions
    numParams := params.length
    name }

/-- The code of a phrase, and the draft before and after. -/
inductive Translates : Phrase → Draft → List Piece → Draft → Prop
  | exprStmt {line : Line} {expr : Node} {d d' : Draft} {ps : List Piece} :
    Translates (.expr expr) d ps d' →
      Translates (.stmt (.exprStmt line expr)) d (ps ++ [.op .pop]) d'
  | letStmt {line : Line} {target value : Node} {name : String} {d d' : Draft}
    {ps : List Piece} :
    target.name? = some name → Translates (.expr (value.boundTo name)) d ps d' →
      Translates (.stmt (.letStmt line target value)) d
        (ps ++ [(d'.env.define name).1.store]) (d'.define name)
  | returnNull {line : Line} {d : Draft} :
    d.env.nested ≠ [] →
      Translates (.stmt (.returnStmt line none)) d [.op .pushNull, .op .returnValue] d
  | returnValue {line : Line} {value : Node} {d d' : Draft} {ps : List Piece} :
    d.env.nested ≠ [] → Translates (.expr value) d ps d' →
      Translates (.stmt (.returnStmt line (some value))) d (ps ++ [.op .returnValue]) d'
  | block {line : Line} {statements : List Node} {d d' : Draft} {ps : List Piece} :
    Translates (.stmts statements) d ps d' → Translates (.stmt (.block line statements)) d ps d'
  | noStmts {d : Draft} : Translates (.stmts []) d [] d
  | stmts {node : Node} {rest : List Node} {d d₁ d' : Draft} {ps qs : List Piece} :
    Translates (.stmt node) d ps d₁ → Translates (.stmts rest) d₁ qs d' →
      Translates (.stmts (node :: rest)) d (ps ++ qs) d'
  | intLit {line : Line} {n : Int} {d : Draft} :
    IsWord n →
      Translates (.expr (.intLit line (.int n))) d [.op .constant [d.constants.size]]
        (d.addConstant (.int n))
  | strLit {line : Line} {s : String} {d : Draft} :
    Translates (.expr (.strLit line s)) d [.op .constant [d.constants.size]]
      (d.addConstant (.str s))
  | boolLit {line : Line} {b : Bool} {d : Draft} :
    Translates (.expr (.boolLit line b)) d [.op (if b then .pushTrue else .pushFalse)] d
  | ident {line : Line} {name : String} {s : Symbol} {env : Environment} {d : Draft} :
    d.env.resolve? name = some (s, env) → s.Loadable →
      Translates (.expr (.ident line name)) d [s.load] { d with env }
  | unary {line : Line} {op : String} {right : Node} {code : Opcode} {d d' : Draft}
    {ps : List Piece} :
    unaryOpcode? op = some code → Translates (.expr right) d ps d' →
      Translates (.expr (.unary line op right)) d (ps ++ [.op code]) d'
  | less {line : Line} {left right : Node} {d d₁ d' : Draft} {ps qs : List Piece} :
    Translates (.expr right) d ps d₁ → Translates (.expr left) d₁ qs d' →
      Translates (.expr (.binary line left "<" right)) d (ps ++ qs ++ [.op .greaterThan]) d'
  | binary {line : Line} {left right : Node} {op : String} {code : Opcode} {d d₁ d' : Draft}
    {ps qs : List Piece} :
    op ≠ "<" → binaryOpcode? op = some code → Translates (.expr left) d ps d₁ →
      Translates (.expr right) d₁ qs d' →
      Translates (.expr (.binary line left op right)) d (ps ++ qs ++ [.op code]) d'
  | ifExpr {line : Line} {condition : Node} {consequence alternative : Option Node}
    {first second : List Node} {d d₁ d₂ d' : Draft} {ps ts es : List Piece} :
    Node.branchStatements? consequence = some first →
      Node.branchStatements? alternative = some second →
      Translates (.expr condition) d ps d₁ → Translates (.stmts first) d₁ ts d₂ →
      Translates (.stmts second) d₂ es d' →
      Translates (.expr (.ifExpr line condition consequence alternative)) d
        (ps ++ [.branch (Piece.asBranch ts) (Piece.asBranch es)]) d'
  | fnLit {line : Line} {params : List Node} {names : List String} {body : Node}
    {statements : List Node} {name : Option String} {d d' : Draft} {ps : List Piece} :
    params.mapM Node.name? = some names → body.statements? = some statements →
      Translates (.stmts statements) (d.enter name names) ps d' →
      Piece.Fits 0 (Piece.asBody ps) → (∀ s ∈ d'.env.current.free, s.Loadable) →
      Translates (.expr (.fnLit line params body name)) d
        (d'.env.current.free.map Symbol.load ++
          [.op .closure [d'.constants.size, d'.env.current.free.length]])
        (d'.leave (.ofBody d' ps params name))
  | call {line : Line} {callee : Node} {args : List Node} {d d₁ d' : Draft}
    {ps qs : List Piece} :
    Translates (.expr callee) d ps d₁ → Translates (.exprs args) d₁ qs d' →
      Translates (.expr (.call line callee args)) d (ps ++ qs ++ [.op .call [args.length]]) d'
  | arrayLit {line : Line} {elements : List Node} {d d' : Draft} {ps : List Piece} :
    Translates (.exprs elements) d ps d' →
      Translates (.expr (.arrayLit line elements)) d (ps ++ [.op .array [elements.length]]) d'
  | hashLit {line : Line} {pairs : List (Node × Node)} {d d' : Draft} {ps : List Piece} :
    Translates (.pairs pairs) d ps d' →
      Translates (.expr (.hashLit line pairs)) d (ps ++ [.op .hash [pairs.length * 2]]) d'
  | index {line : Line} {left sub : Node} {d d₁ d' : Draft} {ps qs : List Piece} :
    Translates (.expr left) d ps d₁ → Translates (.expr sub) d₁ qs d' →
      Translates (.expr (.index line left sub)) d (ps ++ qs ++ [.op .index]) d'
  | noExprs {d : Draft} : Translates (.exprs []) d [] d
  | exprs {node : Node} {rest : List Node} {d d₁ d' : Draft} {ps qs : List Piece} :
    Translates (.expr node) d ps d₁ → Translates (.exprs rest) d₁ qs d' →
      Translates (.exprs (node :: rest)) d (ps ++ qs) d'
  | noPairs {d : Draft} : Translates (.pairs []) d [] d
  | pairs {key value : Node} {rest : List (Node × Node)} {d d₁ d₂ d' : Draft}
    {ps qs rs : List Piece} :
    Translates (.expr key) d ps d₁ → Translates (.expr value) d₁ qs d₂ →
      Translates (.pairs rest) d₂ rs d' →
      Translates (.pairs ((key, value) :: rest)) d (ps ++ qs ++ rs) d'

end ClosureVM
