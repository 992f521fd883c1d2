import ClosureVM.Proofs.Compiler.OpenJumps

/-! Which programs have code. A check of the tree that knows the names in sight and nothing else
finds every error that a compilation reports, and the same one first, unless an operand does not fit
in its bytes. Only a literal with too many digits to be written is not reported. -/
namespace ClosureVM

def unaryOperators : List String := ["!", "-"]

def binaryOperators : List String := ["+", "-", "*", "/", "==", "!=", "<", ">"]

/-- A literal stands for an integer of 64 bits. -/
def Numeral.isWord : Numeral → Bool
  | .int n => decide (IsWord n)
  | .other _ => false

namespace Scopes

/-- The names stay as they are, if the condition holds. -/
def require (scopes : Scopes) (p : Prop) [Decidable p] (cause : CompileCause) (line : Line) :
    Except CompileStop Scopes :=
  if p then .ok scopes else .error (.error ⟨cause, line⟩)

/-- Enters a function, which can see its own name. -/
def enterNamed (scopes : Scopes) (name : Option String) : Scopes :=
  match given? name with
  | some name => scopes.enter.add name
  | none => scopes.enter

def addParam (scopes : Scopes) (param : Node) : Except CompileStop Scopes :=
  match param.name? with
  | some name => .ok (scopes.add name)
  | none => .error (.missing .name)

end Scopes

/-- A function's own set of names is there for its body only. -/
def checkFunction (name : Option String) (params : List Node)
    (body : Scopes → Except CompileStop Scopes) (scopes : Scopes) : Except CompileStop Scopes := do
  let inner ← params.foldlM Scopes.addParam (scopes.enterNamed name)
  return (← body inner).leave

mutual

def checkStmt : Node → Scopes → Except CompileStop Scopes
  | .exprStmt _ expr, scopes => checkExpr "" expr scopes
  | .letStmt _ target value, scopes =>
    match target.name? with
    | some name => do return (← checkExpr name value scopes).add name
    | none => .error (.missing .name)
  | .returnStmt line value, scopes => do
    checkResult value (← scopes.require (scopes.functions ≠ []) .returnOutsideFunction line)
  | .block _ statements, scopes => checkStmts statements scopes
  | node, _ => .error (.error ⟨.unknownStatement node.kind, node.line⟩)

def checkResult : Option Node → Scopes → Except CompileStop Scopes
  | none, scopes => .ok scopes
  | some value, scopes => checkExpr "" value scopes

def checkStmts : List Node → Scopes → Except CompileStop Scopes
  | [], scopes => .ok scopes
  | node :: rest, scopes => do checkStmts rest (← checkStmt node scopes)

def checkBlock : Node → Scopes → Except CompileStop Scopes
  | .block _ statements, scopes | .program _ statements, scopes => checkStmts statements scopes
  | _, _ => .error (.missing .statements)

def checkBranch : Option Node → Scopes → Except CompileStop Scopes
  | none, scopes => .ok scopes
  | some block, scopes => checkBlock block scopes

/-- Checks an expression that is bound to the name `target`, if that is not empty. Operands come
before their operator, and the right operand of `<` before the left one. -/
def checkExpr (target : String) : Node → Scopes → Except CompileStop Scopes
  | .intLit line value, scopes => scopes.require value.isWord (.literalRange value) line
  | .strLit .., scopes | .boolLit .., scopes => .ok scopes
  | .ident line name, scopes => scopes.require (scopes.Sees name) (.undefinedVariable name) line
  | .unary line op right, scopes => do
    let scopes ← checkExpr "" right scopes
    scopes.require (op ∈ unaryOperators) (.unknownOperator op) line
  | .binary line left op right, scopes => do
    let scopes ←
      if op = "<" then do checkExpr "" left (← checkExpr "" right scopes)
      else do checkExpr "" right (← checkExpr "" left scopes)
    scopes.require (op ∈ binaryOperators) (.unknownOperator op) line
  | .ifExpr _ condition consequence alternative, scopes => do
    checkBranch alternative (← checkBranch consequence (← checkExpr "" condition scopes))
  | .fnLit _ params body name, scopes =>
    checkFunction (bindingName target name) params (checkBlock body) scopes
  | .call _ callee args, scopes => do checkExprs args (← checkExpr "" callee scopes)
  | .arrayLit _ elements, scopes => checkExprs elements scopes
  | .hashLit _ pairs, scopes => checkPairs pairs scopes
  | .index _ left sub, scopes => do checkExpr "" sub (← checkExpr "" left scopes)
  | node, _ => .error (.error ⟨.unknownExpression node.kind, node.line⟩)

def checkExprs : List Node → Scopes → Except CompileStop Scopes
  | [], scopes => .ok scopes
  | node :: rest, scopes => do checkExprs rest (← checkExpr "" node scopes)

def checkPairs : List (Node × Node) → Scopes → Except CompileStop Scopes
  | [], scopes => .ok scopes
  | (key, value) :: rest, scopes => do
    checkPairs rest (← checkExpr "" value (← checkExpr "" key scopes))

end

/-- Checks a program, given the names that are there before. -/
def Node.check (names : Finset String) : Node → Except CompileStop Scopes
  | .program _ statements => checkStmts statements ⟨names, []⟩
  | node => .error (.error ⟨.notProgram, node.line⟩)

/-- What the check does at one place of the tree. -/
def Action.check : Action → Scopes → Except CompileStop Scopes
  | .stop reason, _ => .error reason
  | .number line value, scopes => scopes.require value.isWord (.literalRange value) line
  | .load line name, scopes => scopes.require (scopes.Sees name) (.undefinedVariable name) line
  | .unary line op, scopes => scopes.require (unaryOpcode? op).isSome (.unknownOperator op) line
  | .binary line op, scopes => scopes.require (binaryOpcode? op).isSome (.unknownOperator op) line
  | .bind name, scopes | .param name, scopes => .ok (scopes.add name)
  | .inFunction line, scopes =>
    scopes.require (scopes.functions ≠ []) .returnOutsideFunction line
  | .text _, scopes | .truth _, scopes | .emit .., scopes => .ok scopes

def Task.check : Task → Scopes → Except CompileStop Scopes
  | .action a, scopes => a.check scopes
  | .enter name, scopes => .ok (scopes.enterNamed name)
  | .leave .., scopes => .ok scopes.leave
  | .fork, scopes | .otherwise, scopes | .join, scopes => .ok scopes

def checkAll (tasks : List Task) (scopes : Scopes) : Except CompileStop Scopes :=
  tasks.foldlM (fun scopes task => task.check scopes) scopes

theorem checkAll_append (tasks tasks' : List Task) (scopes : Scopes) :
    checkAll (tasks ++ tasks') scopes = (do checkAll tasks' (← checkAll tasks scopes)) :=
  List.foldlM_append

theorem checkAll_cons (task : Task) (tasks : List Task) (scopes : Scopes) :
    checkAll (task :: tasks) scopes = (do checkAll tasks (← task.check scopes)) :=
  List.foldlM_cons

theorem checkAll_action (a : Action) (scopes : Scopes) :
    checkAll [.action a] scopes = a.check scopes := by
  rw [checkAll_cons]
  exact bind_pure _

private theorem isSome_unaryOpcode?_iff {op : String} :
    (unaryOpcode? op).isSome ↔ op ∈ unaryOperators := by
  unfold unaryOpcode? unaryOperators
  split <;> simp_all

private theorem isSome_binaryOpcode?_iff {op : String} (h : op ≠ "<") :
    (binaryOpcode? op).isSome ↔ op ∈ binaryOperators := by
  unfold binaryOpcode? binaryOperators
  split <;> simp_all

private theorem widths_unaryOpcode? {op : String} {code : Opcode}
    (h : unaryOpcode? op = some code) : code.widths = [] := by
  unfold unaryOpcode? at h
  split at h <;> cases h <;> rfl

private theorem widths_binaryOpcode? {op : String} {code : Opcode}
    (h : binaryOpcode? op = some code) : code.widths = [] := by
  unfold binaryOpcode? at h
  split at h <;> cases h <;> rfl

private theorem checkAll_params (params : List Node) (scopes : Scopes) :
    checkAll (params.map fun param => .action param.paramAction) scopes =
      params.foldlM Scopes.addParam scopes := by
  unfold checkAll
  rw [List.foldlM_map]
  congr 1
  funext scopes param
  unfold Node.paramAction Scopes.addParam
  cases param.name? <;> rfl

private theorem checkAll_function (name : Option String) (params : List Node) {body : List Task}
    {f : Scopes → Except CompileStop Scopes} (h : ∀ scopes, checkAll body scopes = f scopes)
    (scopes : Scopes) : checkAll (functionTasks name params body) scopes =
      checkFunction name params f scopes := by
  unfold functionTasks checkFunction
  rw [checkAll_append, checkAll_append, checkAll_cons, Task.check]
  change (do checkAll [.leave name params] (← (do checkAll body (← checkAll _ _)))) = _
  rw [checkAll_params, bind_assoc]
  congr 1
  funext inner
  rw [h]
  rfl

private theorem checkAll_choice {condition first second : List Task}
    {f g h : Scopes → Except CompileStop Scopes}
    (hf : ∀ scopes, checkAll condition scopes = f scopes)
    (hg : ∀ scopes, checkAll first scopes = g scopes)
    (hh : ∀ scopes, checkAll second scopes = h scopes) (scopes : Scopes) :
    checkAll (choiceTasks condition first second) scopes = (do h (← g (← f scopes))) := by
  have hskip : ∀ {task : Task}, (∀ scopes, task.check scopes = .ok scopes) →
      ∀ tasks scopes, checkAll (task :: tasks) scopes = checkAll tasks scopes := by
    intro task htask tasks scopes
    rw [checkAll_cons, htask]
    rfl
  unfold choiceTasks
  simp only [List.append_assoc, List.cons_append, checkAll_append, hf]
  refine bind_congr fun scopes => ?_
  rw [hskip fun _ => rfl, checkAll_append, hg]
  refine bind_congr fun scopes => ?_
  rw [hskip fun _ => rfl, checkAll_append, hh]
  exact bind_pure _

mutual

theorem checkAll_stmt : (node : Node) → (scopes : Scopes) →
    checkAll (tasksOfStmt node) scopes = checkStmt node scopes
  | .exprStmt _ expr, scopes => by
    rw [tasksOfStmt, checkAll_append, checkAll_expr expr, checkStmt]
    exact bind_pure _
  | .letStmt _ target value, scopes => by
    rw [tasksOfStmt, checkStmt]
    cases target.name? with
    | none => rfl
    | some name =>
      dsimp only
      rw [checkAll_append, checkAll_expr value]
      rfl
  | .returnStmt line value, scopes => by
    rw [tasksOfStmt, List.cons_append, checkAll_cons, checkStmt]
    refine bind_congr fun scopes => ?_
    rw [checkAll_append, checkAll_result value]
    exact bind_pure _
  | .block _ statements, scopes => checkAll_stmts statements scopes
  | .foreign .., _ | .program .., _ | .ident .., _ | .intLit .., _ | .strLit .., _
  | .boolLit .., _ | .unary .., _ | .binary .., _ | .ifExpr .., _ | .fnLit .., _ | .call .., _
  | .arrayLit .., _ | .hashLit .., _ | .index .., _ => rfl

theorem checkAll_result : (value : Option Node) → (scopes : Scopes) →
    checkAll (tasksOfResult value) scopes = checkResult value scopes
  | none, _ => rfl
  | some value, scopes => checkAll_expr value "" scopes

theorem checkAll_stmts : (nodes : List Node) → (scopes : Scopes) →
    checkAll (tasksOfStmts nodes) scopes = checkStmts nodes scopes
  | [], _ => rfl
  | node :: rest, scopes => by
    rw [tasksOfStmts, checkAll_append, checkAll_stmt node, checkStmts]
    exact bind_congr (checkAll_stmts rest)

theorem checkAll_block : (node : Node) → (scopes : Scopes) →
    checkAll (tasksOfBlock node) scopes = checkBlock node scopes
  | .block _ statements, scopes | .program _ statements, scopes => checkAll_stmts statements scopes
  | .foreign .., _ | .letStmt .., _ | .returnStmt .., _ | .exprStmt .., _ | .ident .., _
  | .intLit .., _ | .strLit .., _ | .boolLit .., _ | .unary .., _ | .binary .., _ | .ifExpr .., _
  | .fnLit .., _ | .call .., _ | .arrayLit .., _ | .hashLit .., _ | .index .., _ => rfl

theorem checkAll_branch : (node : Option Node) → (scopes : Scopes) →
    checkAll (tasksOfBranch node) scopes = checkBranch node scopes
  | none, _ => rfl
  | some node, scopes => checkAll_block node scopes

theorem checkAll_expr : (node : Node) → (target : String) → (scopes : Scopes) →
    checkAll (tasksOfExpr target node) scopes = checkExpr target node scopes
  | .intLit line value, _, scopes => checkAll_action (.number line value) scopes
  | .strLit .., _, _ | .boolLit .., _, _ => rfl
  | .ident line name, _, scopes => checkAll_action (.load line name) scopes
  | .unary line op right, _, scopes => by
    rw [tasksOfExpr, checkAll_append, checkAll_expr right, checkExpr]
    refine bind_congr fun scopes => ?_
    rw [checkAll_action, Action.check]
    simp only [isSome_unaryOpcode?_iff]
  | .binary line left op right, _, scopes => by
    rw [tasksOfExpr, checkExpr]
    split
    · rename_i h
      subst h
      rw [List.append_assoc, checkAll_append, checkAll_expr right]
      refine bind_congr fun scopes => ?_
      rw [checkAll_append, checkAll_expr left]
      rfl
    · rename_i h
      rw [List.append_assoc, checkAll_append, checkAll_expr left]
      refine bind_congr fun scopes => ?_
      rw [checkAll_append, checkAll_expr right]
      refine bind_congr fun scopes => ?_
      rw [checkAll_action, Action.check]
      simp only [isSome_binaryOpcode?_iff h]
  | .ifExpr _ condition first second, _, scopes =>
    checkAll_choice (checkAll_expr condition "") (checkAll_branch first) (checkAll_branch second)
      scopes
  | .fnLit _ params body name, _, scopes => checkAll_function _ params (checkAll_block body) scopes
  | .call _ callee args, _, scopes => by
    rw [tasksOfExpr, List.append_assoc, checkAll_append, checkAll_expr callee, checkExpr]
    refine bind_congr fun scopes => ?_
    rw [checkAll_append, checkAll_exprs args]
    exact bind_pure _
  | .arrayLit _ elements, _, scopes => by
    rw [tasksOfExpr, checkAll_append, checkAll_exprs elements, checkExpr]
    exact bind_pure _
  | .hashLit _ pairs, _, scopes => by
    rw [tasksOfExpr, checkAll_append, checkAll_pairs pairs, checkExpr]
    exact bind_pure _
  | .index _ left sub, _, scopes => by
    rw [tasksOfExpr, List.append_assoc, checkAll_append, checkAll_expr left, checkExpr]
    refine bind_congr fun scopes => ?_
    rw [checkAll_append, checkAll_expr sub]
    exact bind_pure _
  | .foreign .., _, _ | .program .., _, _ | .letStmt .., _, _ | .returnStmt .., _, _
  | .exprStmt .., _, _ | .block .., _, _ => rfl

theorem checkAll_exprs : (nodes : List Node) → (scopes : Scopes) →
    checkAll (tasksOfExprs nodes) scopes = checkExprs nodes scopes
  | [], _ => rfl
  | node :: rest, scopes => by
    rw [tasksOfExprs, checkAll_append, checkAll_expr node, checkExprs]
    exact bind_congr (checkAll_exprs rest)

theorem checkAll_pairs : (pairs : List (Node × Node)) → (scopes : Scopes) →
    checkAll (tasksOfPairs pairs) scopes = checkPairs pairs scopes
  | [], _ => rfl
  | (key, value) :: rest, scopes => by
    rw [tasksOfPairs, checkAll_append, checkAll_append, checkAll_expr key, bind_assoc, checkPairs]
    refine bind_congr fun scopes => ?_
    rw [checkAll_expr value]
    exact bind_congr (checkAll_pairs rest)

end

/-- What the check says of a computation comes true: if it passes, the compilation goes on with the
names it gives, unless an operand does not fit; if it fails, the error is raised. -/
structure Obeys {α : Type} (x : CompileM α) (c : Compiler) (r : Except CompileStop Scopes)
    (R : α → Compiler → Scopes → Prop) : Prop where
  passed : ∀ scopes, r = .ok scopes → Meets x c fun a c' => R a c' scopes
  failed : ∀ e, r = .error e → ∃ c', x c = .error e.raised c'

namespace Obeys

variable {α : Type} {x : CompileM α} {c : Compiler} {R : α → Compiler → Scopes → Prop}
  {scopes : Scopes}

theorem ok (h : Meets x c fun a c' => R a c' scopes) : Obeys x c (.ok scopes) R where
  passed _ hr := by
    cases hr
    exact h
  failed _ hr := by cases hr

theorem error {e : CompileStop} {c' : Compiler} (h : x c = .error e.raised c') :
    Obeys x c (.error e) R where
  passed _ hr := by cases hr
  failed _ hr := by
    cases hr
    exact ⟨c', h⟩

theorem require {p : Prop} [Decidable p] {cause : CompileCause} {line : Line}
    (hp : p → Meets x c fun a c' => R a c' scopes)
    (hn : ¬p → ∃ c', x c = .error (CompileStop.raised (.error ⟨cause, line⟩)) c') :
    Obeys x c (scopes.require p cause line) R := by
  unfold Scopes.require
  split
  · rename_i h
    exact ok (hp h)
  · rename_i h
    obtain ⟨c', hc⟩ := hn h
    exact error hc

end Obeys

theorem Scopes.length_add (scopes : Scopes) (name : String) :
    (scopes.add name).functions.length = scopes.functions.length := by
  unfold add
  split <;> simp_all

namespace Meets

variable {c : Compiler} {opened : List (List Jump)} {scopes : Scopes} (h : c.Agrees opened scopes)
include h

theorem define (name : String) :
    Meets (CompileM.define name) c fun _ c' => c'.Agrees opened (scopes.add name) :=
  ⟨h.jumps, h.names.define name, h.nested.trans (scopes.length_add name).symm⟩

theorem constant (v : Value) : Meets (do CompileM.emit .constant [← CompileM.addConstant v]) c
    fun _ c' => c'.Agrees opened scopes :=
  bind ((addConstant h v).mono fun _ _ h' => emit h' rfl)

theorem openScope (name : Option String) :
    Meets (openScope name) c fun _ c' => c'.Agrees ([] :: opened) (scopes.enterNamed name) := by
  have henter : { c with env := c.env.enter, emission := {}, outer := c.emission :: c.outer }.Agrees
      ([] :: opened) scopes.enter :=
    ⟨.cons trivial h.jumps, h.names.enter, congrArg (· + 1) h.nested⟩
  unfold ClosureVM.openScope Scopes.enterNamed
  cases given? name with
  | none => exact ⟨henter⟩
  | some name =>
    exact ⟨henter.jumps, henter.names.defineFunctionName name,
      henter.nested.trans (scopes.enter.length_add name).symm⟩

theorem resolve {name : String} {line : Line} (hs : scopes.Sees name) :
    Meets (CompileM.resolve name line) c fun _ c' => c'.Agrees opened scopes := by
  cases hr : c.env.resolve? name with
  | none => exact absurd hs (h.names.resolve?_none hr)
  | some found =>
    obtain ⟨s, env⟩ := found
    exact of_eq (CompileM.resolve_of_some hr line) ⟨h.jumps, (h.names.resolve?_some hr).2, h.nested⟩

end Meets

theorem Meets.leaveScope {c : Compiler} {js js' : List Jump} {rest : List (List Jump)}
    {scopes : Scopes} (h : c.Agrees (js :: js' :: rest) scopes) :
    Meets CompileM.leaveScope c fun _ c' => c'.Agrees (js' :: rest) scopes.leave := by
  obtain ⟨hjumps, hnames, hnested⟩ := h
  obtain ⟨-, hjumps⟩ := List.forall₂_cons.mp hjumps
  cases ho : c.outer with
  | nil =>
    rw [ho] at hjumps
    cases hjumps
  | cons em outer =>
    rw [ho] at hjumps hnested
    have heq : CompileM.leaveScope c =
        .ok c.emission.code { c with env := c.env.leave, emission := em, outer } := by
      rw [CompileM.leaveScope, EStateM.bind_ok (EStateM.get_apply c), ho]
      rfl
    refine of_eq heq ⟨hjumps, hnames.leave, ?_⟩
    rw [Scopes.leave, List.length_tail, ← hnested]
    rfl

theorem Meets.closeFunction {c : Compiler} {js js' : List Jump} {rest : List (List Jump)}
    {scopes : Scopes} (h : c.Agrees (js :: js' :: rest) scopes) (name : Option String)
    (params : List Node) :
    Meets (closeFunction name params) c fun _ c' => c'.Agrees (js' :: rest) scopes.leave := by
  unfold ClosureVM.closeFunction
  refine bind ((compileReturn h).mono fun _ c₁ h₁ => bind (of_eq (EStateM.get_apply c₁) ?_))
  exact bind ((leaveScope h₁).mono fun code c₂ h₂ => makeFunction h₂ name params _ code)

/-- An operator that is known is written without operands. -/
theorem Obeys.operator {c : Compiler} {opened : List (List Jump)} {scopes : Scopes} {op : String}
    {line : Line} {code? : Option Opcode} (h : c.Agrees opened scopes)
    (hw : ∀ code, code? = some code → code.widths = []) :
    Obeys (match code? with
      | some code => CompileM.emit code
      | none => CompileM.fail (.unknownOperator op) line) c
      (scopes.require code?.isSome (.unknownOperator op) line)
      fun _ c' scopes' => c'.Agrees opened scopes' := by
  cases code? with
  | none => exact .require (fun hp => by cases hp) fun _ => ⟨c, rfl⟩
  | some code =>
    refine .require (fun _ => .emit h ?_) fun hp => absurd rfl hp
    rw [hw code rfl]
    rfl

/-- Every action does what the check says. -/
theorem Action.perform_obeys (a : Action) {c : Compiler} {opened : List (List Jump)}
    {scopes : Scopes} (h : c.Agrees opened scopes) :
    Obeys a.perform c (a.check scopes) fun _ c' scopes' => c'.Agrees opened scopes' := by
  cases a with
  | stop reason => exact .error rfl
  | number line value =>
    cases value with
    | int n =>
      refine .require (fun hn => ?_) fun hn => ?_
      · change Meets (compileLiteral line (.int n)) c _
        rw [compileLiteral, if_pos (of_decide_eq_true hn)]
        exact .constant h _
      · refine ⟨c, ?_⟩
        change compileLiteral line (.int n) c = _
        rw [compileLiteral, if_neg fun hw => hn (decide_eq_true hw), outOfRange_eq_raised]
        rfl
    | other text => exact .require (fun hn => by cases hn) fun _ => ⟨c, rfl⟩
  | text value => exact .ok (.constant h _)
  | truth value =>
    refine .ok (.emit h ?_)
    cases value <;> rfl
  | load line name =>
    refine .require (fun hs => ?_) fun hs => ?_
    · exact .bind ((Meets.resolve h hs).mono fun s _ h' => .load h' s)
    · cases hr : c.env.resolve? name with
      | none =>
        refine ⟨c, ?_⟩
        rw [perform, EStateM.bind_apply, CompileM.resolve_of_none hr line]
        rfl
      | some found => exact absurd (h.names.resolve?_some hr).1 hs
  | unary line op => exact .operator h fun _ => widths_unaryOpcode?
  | binary line op => exact .operator h fun _ => widths_binaryOpcode?
  | bind name => exact .ok (.bind ((Meets.define h name).mono fun s _ h' => .store h' s))
  | param name => exact .ok (Meets.define h name).discard
  | inFunction line =>
    have hiff : c.outer.isEmpty = true ↔ scopes.functions = [] := by
      rw [List.isEmpty_iff, ← List.length_eq_zero_iff, h.nested, List.length_eq_zero_iff]
    have happly : perform (.inFunction line) c =
        if c.outer.isEmpty then .error (.error ⟨.returnOutsideFunction, line⟩) c else .ok () c := by
      rw [perform, EStateM.bind_ok (EStateM.get_apply c)]
      cases c.outer.isEmpty <;> rfl
    refine .require (fun hne => .of_eq (happly.trans (if_neg ?_)) h) fun he => ?_
    · rwa [hiff]
    · exact ⟨c, happly.trans (if_pos (hiff.mpr (not_not.mp he)))⟩
  | emit op operands counted => exact .ok (.emit h (by rw [List.length_map, counted]))

/-- Every task does what the check says. -/
theorem Task.perform_obeys (task : Task) {c : Compiler} {opened : List (List Jump)}
    {scopes : Scopes} (h : c.Agrees opened scopes) :
    Obeys (task.perform opened) c (task.check scopes) fun opened' c' scopes' =>
      c'.Agrees opened' scopes' := by
  obtain ⟨js, rest, -, hrest, rfl⟩ := List.forall₂_cons_left_iff.mp h.jumps
  cases task with
  | action a =>
    have ha := a.perform_obeys h
    refine ⟨fun scopes' hr => ?_, fun e hr => ?_⟩
    · exact .bind ((ha.passed scopes' hr).mono fun _ _ h' => ⟨h'⟩)
    · obtain ⟨c', hc⟩ := ha.failed e hr
      refine ⟨c', ?_⟩
      rw [perform, EStateM.bind_apply, hc]
  | enter name => exact .ok (.bind ((Meets.openScope h name).mono fun _ _ h' => ⟨h'⟩))
  | leave name params =>
    cases rest with
    | nil =>
      -- no function is being written, so that the check has none to leave
      have houter : c.outer = [] := List.forall₂_nil_right_iff.mp hrest
      have hnone : scopes.functions = [] := by
        rw [← List.length_eq_zero_iff, ← h.nested, houter, List.length_nil]
      have hleave : scopes.leave = scopes := by rw [Scopes.leave, hnone, List.tail_nil, ← hnone]
      exact .ok ⟨by rw [hleave]; exact h⟩
    | cons js' rest =>
      exact .ok (.bind ((Meets.closeFunction h name params).mono fun _ _ h' => ⟨h'⟩))
  | fork =>
    exact .ok (.bind ((Meets.jump h rfl).mono fun _ _ h' => ⟨h'⟩))
  | otherwise =>
    cases js with
    | nil => exact .ok ⟨h⟩
    | cons j js =>
      refine .ok (.bind ((Meets.finishBranch h).mono fun _ c₁ h₁ => ?_))
      refine .bind ((Meets.jump h₁ rfl).mono fun p c₂ h₂ => ?_)
      refine .bind ((Meets.patchOuter h₂).mono fun _ c₃ h₃ => ?_)
      obtain ⟨hsize, h₃⟩ := h₃
      rw [← hsize] at h₃
      exact ⟨h₃⟩
  | join =>
    cases js with
    | nil => exact .ok ⟨h⟩
    | cons j js =>
      refine .ok (.bind ((Meets.finishBranch h).mono fun _ c₁ h₁ => ?_))
      exact .bind ((Meets.patchInner h₁).mono fun _ _ h₂ => ⟨h₂⟩)

theorem performAll_meets (tasks : List Task) {c : Compiler} {opened : List (List Jump)}
    {scopes scopes' : Scopes} (h : c.Agrees opened scopes)
    (hc : checkAll tasks scopes = .ok scopes') :
    Meets (performAll tasks opened) c fun opened' c' => c'.Agrees opened' scopes' := by
  induction tasks generalizing c opened scopes with
  | nil =>
    cases hc
    exact ⟨h⟩
  | cons task tasks ih =>
    rw [checkAll_cons] at hc
    rw [performAll_cons]
    cases ht : task.check scopes with
    | error e =>
      rw [ht] at hc
      cases hc
    | ok scopes₁ =>
      rw [ht] at hc
      exact .bind (((task.perform_obeys h).passed scopes₁ ht).mono fun _ _ h₁ => ih h₁ hc)

/-- A check that fails passes up to some task, and fails there. -/
theorem checkAll_error {tasks : List Task} {scopes : Scopes} {e : CompileStop}
    (h : checkAll tasks scopes = .error e) :
    ∃ before task after scopes', tasks = before ++ task :: after ∧
      checkAll before scopes = .ok scopes' ∧ task.check scopes' = .error e := by
  induction tasks generalizing scopes with
  | nil => cases h
  | cons task tasks ih =>
    rw [checkAll_cons] at h
    cases ht : task.check scopes with
    | error e' =>
      rw [ht] at h
      cases h
      exact ⟨[], task, tasks, scopes, rfl, rfl, ht⟩
    | ok scopes₁ =>
      rw [ht] at h
      obtain ⟨before, last, after, scopes', rfl, hb, hl⟩ := ih h
      refine ⟨task :: before, last, after, scopes', rfl, ?_, hl⟩
      rw [checkAll_cons, ht]
      exact hb

private theorem Node.checkAll_tasks (program : Node) (names : Finset String) :
    checkAll program.tasks ⟨names, []⟩ = program.check names := by
  cases program with
  | program line statements => exact checkAll_stmts statements ⟨names, []⟩
  | _ => rfl

private theorem Session.agrees_compiler (s : Session) :
    s.compiler.Agrees [[]] ⟨s.names.bound, []⟩ :=
  ⟨.cons trivial .nil, ⟨rfl, .nil⟩, rfl⟩

/-- How the tasks of a program end is how its compilation ends. -/
theorem Session.compile_tasks (s : Session) (program : Node) :
    match performAll program.tasks [[]] s.compiler with
    | .ok _ c => (s.compile program).1 = .ok c.emission.code
    | .error stop _ => (s.compile program).1 = .error stop := by
  cases program with
  | program line statements =>
    rw [Node.tasks, (compileStmts_performs statements).apply, compile_program]
    cases compileStmts statements s.compiler with
    | ok u c => rfl
    | error stop c => cases stop <;> rfl
  | _ => rfl

/-- A program that passes the check has code, and for one that fails it the error that the check
finds first is raised; but in both cases an operand that does not fit may come before. If the check
fails, such an operand belongs to a task before the one at which it fails. -/
theorem Session.compile_rejects_first_error (s : Session) (program : Node) :
    match program.check s.names.bound with
    | .ok _ => (∃ code, (s.compile program).1 = .ok code) ∨
        ∃ stop, (s.compile program).1 = .error stop ∧ stop.DoesNotFit
    | .error e => (s.compile program).1 = .error e.raised ∨
        ∃ before task after scopes stop c, program.tasks = before ++ task :: after ∧
          checkAll before ⟨s.names.bound, []⟩ = .ok scopes ∧ task.check scopes = .error e ∧
          performAll before [[]] s.compiler = .error stop c ∧
          (s.compile program).1 = .error stop ∧ stop.DoesNotFit := by
  have htasks := s.compile_tasks program
  have hagrees := s.agrees_compiler
  rw [← program.checkAll_tasks]
  cases hc : checkAll program.tasks ⟨s.names.bound, []⟩ with
  | ok scopes =>
    obtain ⟨hends⟩ := performAll_meets program.tasks hagrees hc
    cases hp : performAll program.tasks [[]] s.compiler with
    | ok opened c =>
      rw [hp] at htasks
      exact .inl ⟨_, htasks⟩
    | error stop c =>
      rw [hp] at htasks hends
      exact .inr ⟨stop, htasks, hends⟩
  | error e =>
    -- the tasks before the one at fault pass the check, so that only an operand can stop them
    obtain ⟨before, task, after, scopes, hsplit, hbefore, htask⟩ := checkAll_error hc
    obtain ⟨hends⟩ := performAll_meets before hagrees hbefore
    rw [hsplit, performAll_append, EStateM.bind_apply] at htasks
    cases hp : performAll before [[]] s.compiler with
    | ok opened c =>
      rw [hp] at htasks hends
      obtain ⟨c', hfails⟩ := (task.perform_obeys hends).failed e htask
      dsimp only at htasks
      rw [performAll_cons, EStateM.bind_apply, hfails] at htasks
      exact .inl htasks
    | error stop c =>
      rw [hp] at htasks hends
      exact .inr ⟨before, task, after, scopes, stop, c, hsplit, hbefore, htask, hp, htasks, hends⟩

/-- A literal of 5001 digits: the check finds that it is out of range, but no error says so. -/
theorem Session.compile_literal_unreported :
    let n : Numeral := .int (Nat.pow 10 5000 : Nat)
    let program : Node := .program none [.exprStmt none (.intLit none n)]
    program.check (Session.names {}).bound = .error (.error ⟨.literalRange n, none⟩) ∧
      (Session.compile {} program).1 = .error (.missing .numeral) := by
  intro n program
  have hn : n.isWord = false := by decide +kernel
  refine ⟨?_, by decide +kernel⟩
  simp only [program, Node.check, checkStmts, checkStmt, checkExpr, Scopes.require, hn]
  rfl

end ClosureVM
