import ClosureVM.Proofs.Compiler.Correspondence

/-! The work of a compilation as a list of tasks. A program tree is gone through in one fixed order,
and to compile it is to perform the tasks that it holds, one after the other. -/
namespace ClosureVM

/-- What is done at one place of a program tree. -/
inductive Action
  /-- A node that cannot stand there. -/
  | stop (reason : CompileStop)
  | number (line : Line) (value : Numeral)
  | text (value : String)
  | truth (value : Bool)
  | load (line : Line) (name : String)
  | unary (line : Line) (op : String)
  | binary (line : Line) (op : String)
  | bind (name : String)
  | param (name : String)
  | inFunction (line : Line)
  | emit (op : Opcode) (operands : List Nat) (counted : operands.length = op.widths.length := by rfl)

/-- A function is entered and left, and a choice is made of a condition, `fork`, the first branch,
`otherwise`, the second branch and `join`. -/
inductive Task
  | action (a : Action)
  | enter (name : Option String)
  | leave (name : Option String) (params : List Node)
  | fork
  | otherwise
  | join

/-- A parameter is a node that spells a name. -/
def Node.paramAction (param : Node) : Action :=
  match param.name? with
  | some name => .param name
  | none => .stop (.missing .name)

def functionTasks (name : Option String) (params : List Node) (body : List Task) : List Task :=
  .enter name :: (params.map fun param => .action param.paramAction) ++ body ++ [.leave name params]

def choiceTasks (condition first second : List Task) : List Task :=
  condition ++ .fork :: first ++ .otherwise :: second ++ [.join]

mutual

def tasksOfStmt : Node → List Task
  | .exprStmt _ expr => tasksOfExpr "" expr ++ [.action (.emit .pop [])]
  | .letStmt _ target value =>
    match target.name? with
    | some name => tasksOfExpr name value ++ [.action (.bind name)]
    | none => [.action (.stop (.missing .name))]
  | .returnStmt line value =>
    .action (.inFunction line) :: tasksOfResult value ++ [.action (.emit .returnValue [])]
  | .block _ statements => tasksOfStmts statements
  | node => [.action (.stop (.error ⟨.unknownStatement node.kind, node.line⟩))]

def tasksOfResult : Option Node → List Task
  | none => [.action (.emit .pushNull [])]
  | some value => tasksOfExpr "" value

def tasksOfStmts : List Node → List Task
  | [] => []
  | node :: rest => tasksOfStmt node ++ tasksOfStmts rest

def tasksOfBlock : Node → List Task
  | .block _ statements | .program _ statements => tasksOfStmts statements
  | _ => [.action (.stop (.missing .statements))]

def tasksOfBranch : Option Node → List Task
  | none => []
  | some block => tasksOfBlock block

/-- The tasks of an expression that is bound to the name `target`, if that is not empty. The right
operand of `<` comes first, as that of `>` with the operands exchanged. -/
def tasksOfExpr (target : String) : Node → List Task
  | .intLit line value => [.action (.number line value)]
  | .strLit _ value => [.action (.text value)]
  | .boolLit _ value => [.action (.truth value)]
  | .ident line name => [.action (.load line name)]
  | .unary line op right => tasksOfExpr "" right ++ [.action (.unary line op)]
  | .binary line left op right =>
    if op = "<" then
      tasksOfExpr "" right ++ tasksOfExpr "" left ++ [.action (.binary line ">")]
    else tasksOfExpr "" left ++ tasksOfExpr "" right ++ [.action (.binary line op)]
  | .ifExpr _ condition consequence alternative =>
    choiceTasks (tasksOfExpr "" condition) (tasksOfBranch consequence) (tasksOfBranch alternative)
  | .fnLit _ params body name =>
    functionTasks (bindingName target name) params (tasksOfBlock body)
  | .call _ callee args =>
    tasksOfExpr "" callee ++ tasksOfExprs args ++ [.action (.emit .call [args.length])]
  | .arrayLit _ elements => tasksOfExprs elements ++ [.action (.emit .array [elements.length])]
  | .hashLit _ pairs => tasksOfPairs pairs ++ [.action (.emit .hash [pairs.length * 2])]
  | .index _ left sub => tasksOfExpr "" left ++ tasksOfExpr "" sub ++ [.action (.emit .index [])]
  | node => [.action (.stop (.error ⟨.unknownExpression node.kind, node.line⟩))]

def tasksOfExprs : List Node → List Task
  | [] => []
  | node :: rest => tasksOfExpr "" node ++ tasksOfExprs rest

def tasksOfPairs : List (Node × Node) → List Task
  | [] => []
  | (key, value) :: rest => tasksOfExpr "" key ++ tasksOfExpr "" value ++ tasksOfPairs rest

end

/-- The tasks of a program. -/
def Node.tasks : Node → List Task
  | .program _ statements => tasksOfStmts statements
  | node => [.action (.stop (.error ⟨.notProgram, node.line⟩))]

open CompileM

/-- What comes of an error: the message for an integer out of range shows the integer, and if that
has too many digits, the compilation breaks off instead. -/
def CompileStop.raised : CompileStop → CompileStop
  | .error ⟨.literalRange (.int n), line⟩ =>
    if Text.isWritable n then .error ⟨.literalRange (.int n), line⟩ else .missing .numeral
  | stop => stop

theorem outOfRange_eq_raised (line : Line) (value : Numeral) :
    outOfRange line value = CompileStop.raised (.error ⟨.literalRange value, line⟩) := by
  cases value <;> rfl

def Action.perform : Action → CompileM Unit
  | .stop reason => throw reason.raised
  | .number line value => compileLiteral line value
  | .text value => do CompileM.emit .constant [← addConstant (.str value)]
  | .truth value => CompileM.emit (if value then .pushTrue else .pushFalse)
  | .load line name => do CompileM.load (← resolve name line)
  | .unary line op =>
    match unaryOpcode? op with
    | some op => CompileM.emit op
    | none => fail (.unknownOperator op) line
  | .binary line op =>
    match binaryOpcode? op with
    | some op => CompileM.emit op
    | none => fail (.unknownOperator op) line
  | .bind name => do store (← define name)
  | .param name => discard (define name)
  | .inFunction line => do if (← get).outer.isEmpty then fail .returnOutsideFunction line
  | .emit op operands _ => CompileM.emit op (operands.map Nat.cast)

/-- Opens a function, which knows itself by its own name. -/
def openScope (name : Option String) : CompileM Unit := do
  enterScope
  if let some name := given? name then defineFunctionName name

/-- What is left to do for a function once its statements are written. -/
def closeFunction (name : Option String) (params : List Node) : CompileM Unit := do
  compileReturn
  let table := (← get).env.current
  let code ← leaveScope
  makeFunction name params table code

/-- A jump that has no target yet, and where the branch behind it begins. -/
structure Jump where
  position : Nat
  start : Nat

/-- Performs a task, given the open jumps of every function that is being written, those of the
innermost function first. A task that finds nothing open to go with is passed over. -/
def Task.perform : Task → List (List Jump) → CompileM (List (List Jump))
  | .action a, js => do a.perform; return js
  | .enter name, js => do openScope name; return [] :: js
  | .leave name params, _ :: js :: rest => do closeFunction name params; return js :: rest
  | .fork, js :: rest => do
    let p ← emitAt .jumpNotTruthy [unpatched]
    return (⟨p, ← position⟩ :: js) :: rest
  | .otherwise, (j :: js) :: rest => do
    finishBranch j.start
    let p ← emitAt .jump [unpatched]
    patchHere j.position
    return (⟨p, ← position⟩ :: js) :: rest
  | .join, (j :: js) :: rest => do
    finishBranch j.start
    patchHere j.position
    return js :: rest
  | _, js => return js

def performAll (tasks : List Task) (js : List (List Jump)) : CompileM (List (List Jump)) :=
  tasks.foldlM (fun js task => task.perform js) js

/-- To perform the tasks is to run `x`; no jump stays open. -/
def Performs (tasks : List Task) (x : CompileM Unit) : Prop :=
  ∀ js rest, performAll tasks (js :: rest) = (do x; return js :: rest)

theorem performAll_append (tasks tasks' : List Task) (js : List (List Jump)) :
    performAll (tasks ++ tasks') js = (do performAll tasks' (← performAll tasks js)) :=
  List.foldlM_append

theorem performAll_cons (task : Task) (tasks : List Task) (js : List (List Jump)) :
    performAll (task :: tasks) js = (do performAll tasks (← task.perform js)) :=
  List.foldlM_cons

private theorem performAll_nil (js : List (List Jump)) : performAll [] js = pure js := rfl

namespace Performs

variable {tasks tasks' : List Task} {x y : CompileM Unit}

/-- How the tasks end is how `x` ends. -/
theorem apply (h : Performs tasks x) (js : List Jump) (rest : List (List Jump)) (c : Compiler) :
    performAll tasks (js :: rest) c =
      match x c with
      | .ok _ c' => .ok (js :: rest) c'
      | .error e c' => .error e c' := by
  rw [h js rest, EStateM.bind_apply]
  cases x c <;> rfl

theorem eq_discard (h : Performs tasks x) : x = discard (performAll tasks [[]]) := by
  rw [EStateM.discard_eq, h, bind_assoc]
  exact (bind_pure x).symm

theorem unique (h : Performs tasks x) (h' : Performs tasks y) : x = y :=
  h.eq_discard.trans h'.eq_discard.symm

theorem nil : Performs [] (pure ()) := fun _ _ => rfl

theorem append (h : Performs tasks x) (h' : Performs tasks' y) :
    Performs (tasks ++ tasks') (do x; y) := by
  intro js rest
  rw [performAll_append, h]
  simp only [bind_assoc, pure_bind, h' js rest]

theorem action (a : Action) : Performs [.action a] a.perform :=
  fun _ _ => bind_pure _

theorem stop {reason : CompileStop} (h : reason.raised = reason) :
    Performs [.action (.stop reason)] (throw reason) := by
  have ha := action (.stop reason)
  rwa [Action.perform, h] at ha

theorem emit (op : Opcode) (operands : List Nat) (h : operands.length = op.widths.length) :
    Performs [.action (.emit op operands h)] (CompileM.emit op (operands.map Nat.cast)) :=
  action (.emit op operands h)

theorem param (node : Node) : Performs [.action node.paramAction] (defineParam node) := by
  have h : node.paramAction.perform = defineParam node := by
    unfold Node.paramAction defineParam nameOf
    cases node.name? <;> rfl
  exact h ▸ action node.paramAction

theorem params (params : List Node) :
    Performs (params.map fun param => .action param.paramAction) (params.forM defineParam) := by
  induction params with
  | nil => exact nil
  | cons node rest ih => exact (param node).append ih

theorem choice {condition first second : List Task} {z : CompileM Unit}
    (hx : Performs condition x) (hy : Performs first y) (hz : Performs second z) :
    Performs (choiceTasks condition first second) (compileIf x y z) := by
  intro js rest
  unfold choiceTasks compileIf compileBranch
  simp only [List.append_assoc, List.cons_append, performAll_append, performAll_cons,
    Task.perform, hx js rest, hy _ rest, hz _ rest, bind_assoc, pure_bind]
  rfl

theorem function (name : Option String) (params : List Node) {body : List Task}
    (h : Performs body x) :
    Performs (functionTasks name params body) (compileFunction name params x) := by
  intro js rest
  have hopen : openFunction name params = (do openScope name; params.forM defineParam) := by
    unfold openFunction openScope
    cases given? name <;> simp only [bind_assoc, pure_bind]
  have hclose : compileFunction name params x = (do
      openScope name
      params.forM defineParam
      x
      closeFunction name params) := by
    rw [compileFunction_eq, hopen, bind_assoc]
    rfl
  have hparams := Performs.params params [] (js :: rest)
  rw [hclose]
  unfold functionTasks
  simp only [List.cons_append, performAll_append, performAll_cons, performAll_nil, Task.perform,
    hparams, h [] (js :: rest), bind_assoc, pure_bind]

theorem unbound {node : Node}
    (h : Performs (tasksOfExpr "" node) (compileExpr (node.boundTo ""))) :
    Performs (tasksOfExpr "" node) (compileExpr node) := by
  rwa [node.boundTo_empty] at h

theorem letStmt {line : Line} (target : Node) {value : Node}
    (h : ∀ name, Performs (tasksOfExpr name value) (compileExpr (value.boundTo name))) :
    Performs (tasksOfStmt (.letStmt line target value))
      (compileStmt (.letStmt line target value)) := by
  rw [compileStmt_letStmt, tasksOfStmt, nameOf]
  cases target.name? with
  | none => exact stop rfl
  | some name => exact (h name).append (action (.bind name))

theorem returnStmt (line : Line) {value : Option Node}
    (h : Performs (tasksOfResult value) (compileResult value)) :
    Performs (tasksOfStmt (.returnStmt line value)) (compileStmt (.returnStmt line value)) := by
  have hx := (action (.inFunction line)).append (h.append (emit .returnValue [] rfl))
  have he : (do Action.perform (.inFunction line); compileResult value; CompileM.emit .returnValue) =
      compileStmt (.returnStmt line value) := by
    funext c
    rw [compileStmt, Action.perform]
    simp only [EStateM.bind_apply, EStateM.get_apply]
    cases c.outer.isEmpty <;> rfl
  rw [← he, tasksOfStmt]
  exact hx

end Performs

mutual

theorem compileStmt_performs : (node : Node) → Performs (tasksOfStmt node) (compileStmt node)
  | .exprStmt _ expr => (Performs.unbound (compileExpr_performs expr "")).append (.emit _ _ _)
  | .letStmt _ target value => .letStmt target (compileExpr_performs value)
  | .returnStmt line value => .returnStmt line (compileResult_performs value)
  | .block _ statements => compileStmts_performs statements
  | .foreign .. | .program .. | .ident .. | .intLit .. | .strLit .. | .boolLit .. | .unary ..
  | .binary .. | .ifExpr .. | .fnLit .. | .call .. | .arrayLit .. | .hashLit .. | .index .. =>
    .stop rfl

theorem compileResult_performs : (value : Option Node) →
    Performs (tasksOfResult value) (compileResult value)
  | none => .emit _ _ _
  | some value => .unbound (compileExpr_performs value "")

theorem compileStmts_performs : (nodes : List Node) →
    Performs (tasksOfStmts nodes) (compileStmts nodes)
  | [] => .nil
  | node :: rest => (compileStmt_performs node).append (compileStmts_performs rest)

theorem compileBlock_performs : (node : Node) → Performs (tasksOfBlock node) (compileBlock node)
  | .block _ statements | .program _ statements => compileStmts_performs statements
  | .foreign .. | .letStmt .. | .returnStmt .. | .exprStmt .. | .ident .. | .intLit ..
  | .strLit .. | .boolLit .. | .unary .. | .binary .. | .ifExpr .. | .fnLit .. | .call ..
  | .arrayLit .. | .hashLit .. | .index .. => .stop rfl

theorem compileOptional_performs : (node : Option Node) →
    Performs (tasksOfBranch node) (compileOptional node)
  | none => .nil
  | some node => compileBlock_performs node

theorem compileExpr_performs : (node : Node) → (target : String) →
    Performs (tasksOfExpr target node) (compileExpr (node.boundTo target))
  | .intLit line value, _ => .action (.number line value)
  | .strLit _ value, _ => .action (.text value)
  | .boolLit _ value, _ => .action (.truth value)
  | .ident line name, _ => .action (.load line name)
  | .unary line op right, _ =>
    (Performs.unbound (compileExpr_performs right "")).append (.action (.unary line op))
  | .binary line left op right, _ => by
    have hl := Performs.unbound (compileExpr_performs left "")
    have hr := Performs.unbound (compileExpr_performs right "")
    change Performs _ (compileExpr (.binary line left op right))
    rw [tasksOfExpr, compileExpr, List.append_assoc, List.append_assoc]
    split
    · exact hr.append (hl.append (.action (.binary line ">")))
    · exact hl.append (hr.append (.action (.binary line op)))
  | .ifExpr _ condition first second, _ =>
    .choice (.unbound (compileExpr_performs condition "")) (compileOptional_performs first)
      (compileOptional_performs second)
  | .fnLit _ params body name, _ => .function _ params (compileBlock_performs body)
  | .call _ callee args, _ => by
    rw [tasksOfExpr, List.append_assoc]
    exact (Performs.unbound (compileExpr_performs callee "")).append
      ((compileExprs_performs args).append (.emit .call [args.length] rfl))
  | .arrayLit _ elements, _ => (compileExprs_performs elements).append (.emit _ _ _)
  | .hashLit _ pairs, _ => (compilePairs_performs pairs).append (.emit _ _ _)
  | .index _ left sub, _ => by
    rw [tasksOfExpr, List.append_assoc]
    exact (Performs.unbound (compileExpr_performs left "")).append
      ((Performs.unbound (compileExpr_performs sub "")).append (.emit .index [] rfl))
  | .foreign .., _ | .program .., _ | .letStmt .., _ | .returnStmt .., _ | .exprStmt .., _
  | .block .., _ => .stop rfl

theorem compileExprs_performs : (nodes : List Node) →
    Performs (tasksOfExprs nodes) (compileExprs nodes)
  | [] => .nil
  | node :: rest =>
    (Performs.unbound (compileExpr_performs node "")).append (compileExprs_performs rest)

theorem compilePairs_performs : (pairs : List (Node × Node)) →
    Performs (tasksOfPairs pairs) (compilePairs pairs)
  | [] => .nil
  | (key, value) :: rest => by
    rw [tasksOfPairs, List.append_assoc]
    exact (Performs.unbound (compileExpr_performs key "")).append
      ((Performs.unbound (compileExpr_performs value "")).append (compilePairs_performs rest))

end
end ClosureVM
