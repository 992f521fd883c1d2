import ClosureVM.Proofs.Compiler.Tasks

/-! Programs in plain form. Some forms of programs are short for others: `a < b` for `b > a`, a
choice without a second branch for one whose second branch is empty, a block among statements for
its statements, and a nameless function bound to a variable for one with the name of the variable.
Written out in full, a program compiles to the same code. -/
namespace ClosureVM

namespace Node

mutual

/-- The node with all short forms written out, at every depth. -/
def desugar : Node → Node
  | .program line statements => .program line (desugarStmts statements)
  | .block line statements => .block line (desugarStmts statements)
  | .letStmt line target value =>
    .letStmt line target ((desugar value).boundTo (target.name?.getD ""))
  | .returnStmt line value => .returnStmt line (desugarOption value)
  | .exprStmt line expr => .exprStmt line (desugar expr)
  | .unary line op right => .unary line op (desugar right)
  | .binary line left op right =>
    if op = "<" then .binary line (desugar right) ">" (desugar left)
    else .binary line (desugar left) op (desugar right)
  | .ifExpr line condition consequence alternative =>
    .ifExpr line (desugar condition) (desugarOption consequence) (some (desugarElse alternative))
  | .fnLit line params body name => .fnLit line params (desugar body) name
  | .call line callee args => .call line (desugar callee) (desugarAll args)
  | .arrayLit line elements => .arrayLit line (desugarAll elements)
  | .hashLit line pairs => .hashLit line (desugarPairs pairs)
  | .index line left sub => .index line (desugar left) (desugar sub)
  | .ident line name => .ident line name
  | .intLit line value => .intLit line value
  | .strLit line value => .strLit line value
  | .boolLit line value => .boolLit line value
  | .foreign kind text => .foreign kind text

def desugarOption : Option Node → Option Node
  | none => none
  | some node => some (desugar node)

def desugarElse : Option Node → Node
  | none => .block none []
  | some node => desugar node

/-- Statements, with those of the blocks among them. -/
def desugarStmts : List Node → List Node
  | [] => []
  | .block _ statements :: rest => desugarStmts statements ++ desugarStmts rest
  | node :: rest => desugar node :: desugarStmts rest

def desugarAll : List Node → List Node
  | [] => []
  | node :: rest => desugar node :: desugarAll rest

def desugarPairs : List (Node × Node) → List (Node × Node)
  | [] => []
  | (key, value) :: rest => (desugar key, desugar value) :: desugarPairs rest

end

def isBlock : Node → Bool
  | .block .. => true
  | _ => false

/-- The value is a function that takes its name from the variable `target`. -/
def takesName (target : String) : Node → Bool
  | .fnLit _ _ _ name => (given? name).isNone && target != ""
  | _ => false

mutual

/-- There are no short forms, at any depth. -/
def isPlain : Node → Bool
  | .program _ statements | .block _ statements => arePlainStmts statements
  | .letStmt _ target value => !value.takesName (target.name?.getD "") && isPlain value
  | .returnStmt _ value => isPlainOption value
  | .exprStmt _ expr => isPlain expr
  | .unary _ _ right => isPlain right
  | .binary _ left op right => op != "<" && isPlain left && isPlain right
  | .ifExpr _ condition consequence alternative =>
    isPlain condition && isPlainOption consequence && alternative.isSome &&
      isPlainOption alternative
  | .fnLit _ _ body _ => isPlain body
  | .call _ callee args => isPlain callee && arePlain args
  | .arrayLit _ elements => arePlain elements
  | .hashLit _ pairs => arePlainPairs pairs
  | .index _ left sub => isPlain left && isPlain sub
  | .ident .. | .intLit .. | .strLit .. | .boolLit .. | .foreign .. => true

def isPlainOption : Option Node → Bool
  | none => true
  | some node => isPlain node

/-- The statements are plain, and no block is among them. -/
def arePlainStmts : List Node → Bool
  | [] => true
  | node :: rest => !node.isBlock && isPlain node && arePlainStmts rest

def arePlain : List Node → Bool
  | [] => true
  | node :: rest => isPlain node && arePlain rest

def arePlainPairs : List (Node × Node) → Bool
  | [] => true
  | (key, value) :: rest => isPlain key && isPlain value && arePlainPairs rest

end

theorem length_desugarAll (nodes : List Node) : (desugarAll nodes).length = nodes.length := by
  induction nodes with
  | nil => rfl
  | cons node rest ih => rw [desugarAll, List.length_cons, List.length_cons, ih]

private theorem length_desugarPairs (pairs : List (Node × Node)) :
    (desugarPairs pairs).length = pairs.length := by
  induction pairs with
  | nil => rfl
  | cons pair rest ih => rw [desugarPairs, List.length_cons, List.length_cons, ih]

/-- Statements stay apart, but for those of blocks. -/
theorem desugarStmts_cons {node : Node} (h : node.isBlock = false) (rest : List Node) :
    desugarStmts (node :: rest) = desugar node :: desugarStmts rest := by
  cases node with
  | block => cases h
  | _ => rfl

private theorem arePlainStmts_append (nodes nodes' : List Node) :
    arePlainStmts (nodes ++ nodes') = (arePlainStmts nodes && arePlainStmts nodes') := by
  induction nodes with
  | nil => rfl
  | cons node rest ih => simp only [List.cons_append, arePlainStmts, ih, Bool.and_assoc]

private theorem isBlock_desugar (node : Node) : node.desugar.isBlock = node.isBlock := by
  cases node with
  | binary line left op right =>
    rw [desugar]
    split <;> rfl
  | _ => rfl

private theorem isPlain_boundTo (node : Node) (target : String) :
    (node.boundTo target).isPlain = node.isPlain := by
  cases node <;> rfl

/-- A function takes the name of a variable once. -/
theorem takesName_boundTo (node : Node) (target : String) :
    (node.boundTo target).takesName target = false := by
  cases node with
  | fnLit line params body name =>
    rw [boundTo, takesName, bindingName]
    split
    · rename_i h
      have hne : target ≠ "" := bne_iff_ne.mp (Bool.and_eq_true_iff.mp h).2
      rw [given?_some, if_neg hne]
      rfl
    · rename_i h
      exact Bool.not_eq_true _ ▸ h
  | _ => rfl

/-- What has taken its name from a variable takes no other. -/
theorem boundTo_eq_self {node : Node} {target : String} (h : node.takesName target = false) :
    node.boundTo target = node := by
  cases node with
  | fnLit line params body name =>
    rw [takesName] at h
    rw [boundTo, bindingName, h]
    rfl
  | _ => rfl

mutual

theorem isPlain_desugar : (node : Node) → node.desugar.isPlain = true
  | .program _ statements | .block _ statements => arePlainStmts_desugar statements
  | .letStmt _ target value => by
    simp only [desugar, isPlain, takesName_boundTo, isPlain_boundTo, isPlain_desugar value,
      Bool.not_false, Bool.and_self]
  | .returnStmt _ value => isPlainOption_desugar value
  | .exprStmt _ expr => isPlain_desugar expr
  | .unary _ _ right => isPlain_desugar right
  | .binary _ left op right => by
    rw [desugar]
    split
    · simp only [isPlain, isPlain_desugar left, isPlain_desugar right]
      rfl
    · rename_i h
      simp only [isPlain, isPlain_desugar left, isPlain_desugar right, bne_iff_ne.mpr h,
        Bool.and_self]
  | .ifExpr _ condition first second => by
    simp only [desugar, isPlain, isPlainOption, isPlain_desugar condition,
      isPlainOption_desugar first, isPlain_desugarElse second, Option.isSome_some, Bool.and_self]
  | .fnLit _ _ body _ => isPlain_desugar body
  | .call _ callee args => by
    simp only [desugar, isPlain, isPlain_desugar callee, arePlain_desugar args, Bool.and_self]
  | .arrayLit _ elements => arePlain_desugar elements
  | .hashLit _ pairs => arePlainPairs_desugar pairs
  | .index _ left sub => by
    simp only [desugar, isPlain, isPlain_desugar left, isPlain_desugar sub, Bool.and_self]
  | .ident .. | .intLit .. | .strLit .. | .boolLit .. | .foreign .. => rfl

theorem isPlainOption_desugar : (node : Option Node) → isPlainOption (desugarOption node) = true
  | none => rfl
  | some node => isPlain_desugar node

theorem isPlain_desugarElse : (node : Option Node) → isPlain (desugarElse node) = true
  | none => rfl
  | some node => isPlain_desugar node

theorem arePlainStmts_desugar : (nodes : List Node) → arePlainStmts (desugarStmts nodes) = true
  | [] => rfl
  | node :: rest => by
    have hrest := arePlainStmts_desugar rest
    cases node with
    | block line statements =>
      rw [desugarStmts, arePlainStmts_append, arePlainStmts_desugar statements, hrest]
      rfl
    | _ =>
      rw [desugarStmts_cons rfl, arePlainStmts, isBlock_desugar, isPlain_desugar, hrest]
      rfl

theorem arePlain_desugar : (nodes : List Node) → arePlain (desugarAll nodes) = true
  | [] => rfl
  | node :: rest => by
    rw [desugarAll, arePlain, isPlain_desugar node, arePlain_desugar rest]
    rfl

theorem arePlainPairs_desugar : (pairs : List (Node × Node)) →
    arePlainPairs (desugarPairs pairs) = true
  | [] => rfl
  | (key, value) :: rest => by
    rw [desugarPairs, arePlainPairs, isPlain_desugar key, isPlain_desugar value,
      arePlainPairs_desugar rest]
    rfl

end

end Node

open Node

private theorem tasksOfStmts_append (nodes nodes' : List Node) :
    tasksOfStmts (nodes ++ nodes') = tasksOfStmts nodes ++ tasksOfStmts nodes' := by
  induction nodes with
  | nil => rfl
  | cons node rest ih => rw [List.cons_append, tasksOfStmts, tasksOfStmts, ih, List.append_assoc]

/-- A function that has taken the name of the variable it is bound to is written in the same way. -/
theorem tasksOfExpr_boundTo (node : Node) (target : String) :
    tasksOfExpr target (node.boundTo target) = tasksOfExpr target node := by
  cases h : node.takesName target with
  | false => rw [boundTo_eq_self h]
  | true =>
    cases node with
    | fnLit line params body name =>
      have hb := boundTo_eq_self (takesName_boundTo (.fnLit line params body name) target)
      simp only [boundTo, fnLit.injEq, true_and] at hb
      rw [boundTo, tasksOfExpr, tasksOfExpr, hb]
    | _ => cases h

mutual

theorem tasksOfStmt_desugar : (node : Node) → tasksOfStmt node.desugar = tasksOfStmt node
  | .exprStmt _ expr => by rw [desugar, tasksOfStmt, tasksOfExpr_desugar expr, tasksOfStmt]
  | .letStmt _ target value => by
    rw [desugar, tasksOfStmt, tasksOfStmt]
    cases target.name? with
    | none => rfl
    | some name =>
      dsimp only [Option.getD_some]
      rw [tasksOfExpr_boundTo, tasksOfExpr_desugar value]
  | .returnStmt _ value => by rw [desugar, tasksOfStmt, tasksOfResult_desugar value, tasksOfStmt]
  | .block _ statements => by rw [desugar, tasksOfStmt, tasksOfStmts_desugar statements, tasksOfStmt]
  | .binary _ _ op _ => by
    rw [desugar]
    split <;> rfl
  | .foreign .. | .program .. | .ident .. | .intLit .. | .strLit .. | .boolLit .. | .unary ..
  | .ifExpr .. | .fnLit .. | .call .. | .arrayLit .. | .hashLit .. | .index .. => rfl

theorem tasksOfResult_desugar : (value : Option Node) →
    tasksOfResult (desugarOption value) = tasksOfResult value
  | none => rfl
  | some value => by rw [desugarOption, tasksOfResult, tasksOfExpr_desugar value, tasksOfResult]

theorem tasksOfStmts_desugar : (nodes : List Node) →
    tasksOfStmts (desugarStmts nodes) = tasksOfStmts nodes
  | [] => rfl
  | node :: rest => by
    have hrest := tasksOfStmts_desugar rest
    cases node with
    | block line statements =>
      rw [desugarStmts, tasksOfStmts_append, tasksOfStmts_desugar statements, hrest, tasksOfStmts,
        tasksOfStmt]
    | _ => rw [desugarStmts_cons rfl, tasksOfStmts, tasksOfStmt_desugar, hrest, tasksOfStmts]

theorem tasksOfBlock_desugar : (node : Node) → tasksOfBlock node.desugar = tasksOfBlock node
  | .block _ statements | .program _ statements => by
    rw [desugar, tasksOfBlock, tasksOfStmts_desugar statements, tasksOfBlock]
  | .binary _ _ op _ => by
    rw [desugar]
    split <;> rfl
  | .foreign .. | .letStmt .. | .returnStmt .. | .exprStmt .. | .ident .. | .intLit ..
  | .strLit .. | .boolLit .. | .unary .. | .ifExpr .. | .fnLit .. | .call .. | .arrayLit ..
  | .hashLit .. | .index .. => rfl

theorem tasksOfBranch_desugar : (node : Option Node) →
    tasksOfBranch (desugarOption node) = tasksOfBranch node
  | none => rfl
  | some node => tasksOfBlock_desugar node

theorem tasksOfElse_desugar : (node : Option Node) →
    tasksOfBranch (some (desugarElse node)) = tasksOfBranch node
  | none => rfl
  | some node => tasksOfBlock_desugar node

theorem tasksOfExpr_desugar : (node : Node) → {target : String} →
    tasksOfExpr target node.desugar = tasksOfExpr target node
  | .unary _ _ right, _ => by rw [desugar, tasksOfExpr, tasksOfExpr_desugar right, tasksOfExpr]
  | .binary _ left op right, _ => by
    rw [desugar, tasksOfExpr]
    split
    · rw [tasksOfExpr, if_neg (by decide), tasksOfExpr_desugar left, tasksOfExpr_desugar right]
    · rename_i h
      rw [tasksOfExpr, if_neg h, tasksOfExpr_desugar left, tasksOfExpr_desugar right]
  | .ifExpr _ condition first second, _ => by
    rw [desugar, tasksOfExpr, tasksOfExpr_desugar condition, tasksOfBranch_desugar first,
      tasksOfElse_desugar second, tasksOfExpr]
  | .fnLit _ params body name, _ => by
    rw [desugar, tasksOfExpr, tasksOfBlock_desugar body, tasksOfExpr]
  | .call _ callee args, _ => by
    simp only [desugar, tasksOfExpr, tasksOfExpr_desugar callee, tasksOfExprs_desugar args,
      length_desugarAll]
  | .arrayLit _ elements, _ => by
    simp only [desugar, tasksOfExpr, tasksOfExprs_desugar elements, length_desugarAll]
  | .hashLit _ pairs, _ => by
    simp only [desugar, tasksOfExpr, tasksOfPairs_desugar pairs, length_desugarPairs]
  | .index _ left sub, _ => by
    rw [desugar, tasksOfExpr, tasksOfExpr_desugar left, tasksOfExpr_desugar sub, tasksOfExpr]
  | .foreign .., _ | .program .., _ | .letStmt .., _ | .returnStmt .., _ | .exprStmt .., _
  | .block .., _ | .ident .., _ | .intLit .., _ | .strLit .., _ | .boolLit .., _ => rfl

theorem tasksOfExprs_desugar : (nodes : List Node) →
    tasksOfExprs (desugarAll nodes) = tasksOfExprs nodes
  | [] => rfl
  | node :: rest => by
    rw [desugarAll, tasksOfExprs, tasksOfExpr_desugar node, tasksOfExprs_desugar rest, tasksOfExprs]

theorem tasksOfPairs_desugar : (pairs : List (Node × Node)) →
    tasksOfPairs (desugarPairs pairs) = tasksOfPairs pairs
  | [] => rfl
  | (key, value) :: rest => by
    rw [desugarPairs, tasksOfPairs, tasksOfExpr_desugar key, tasksOfExpr_desugar value,
      tasksOfPairs_desugar rest, tasksOfPairs]

end

private theorem compileStmts_desugar (nodes : List Node) :
    compileStmts (desugarStmts nodes) = compileStmts nodes := by
  have h := compileStmts_performs (desugarStmts nodes)
  rw [tasksOfStmts_desugar] at h
  exact h.unique (compileStmts_performs nodes)

/-- Written out in full, at every depth, a program is plain, and every session compiles it in the
same way: to the same code, with the same constants and names, or to the same error. -/
theorem Session.compile_desugar (s : Session) (program : Node) :
    program.desugar.isPlain = true ∧ s.compile program.desugar = s.compile program := by
  refine ⟨isPlain_desugar program, ?_⟩
  cases program with
  | program line statements =>
    rw [desugar, compile_program, compile_program, compileStmts_desugar]
  | binary line left op right =>
    rw [desugar]
    split <;> rfl
  | _ => rfl

end ClosureVM
