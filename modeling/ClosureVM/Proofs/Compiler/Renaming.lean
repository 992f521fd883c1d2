import ClosureVM.Proofs.Compiler.Tasks
import ClosureVM.Proofs.Symbol.Renaming

/-! Programs under other names. The code of a program does not depend on what its variables,
parameters and functions are called. -/
namespace ClosureVM

namespace Node

/-- A node that spells the name of a variable or a parameter. -/
def renameBinder (r : String → String) (node : Node) : Node :=
  match node.name? with
  | some name => .ident node.line (r name)
  | none => node

mutual

/-- The node with other names for variables, parameters and functions. -/
def rename (r : String → String) : Node → Node
  | .program line statements => .program line (renameAll r statements)
  | .block line statements => .block line (renameAll r statements)
  | .letStmt line target value => .letStmt line (target.renameBinder r) (rename r value)
  | .returnStmt line value => .returnStmt line (renameOption r value)
  | .exprStmt line expr => .exprStmt line (rename r expr)
  | .ident line name => .ident line (r name)
  | .unary line op right => .unary line op (rename r right)
  | .binary line left op right => .binary line (rename r left) op (rename r right)
  | .ifExpr line condition consequence alternative =>
    .ifExpr line (rename r condition) (renameOption r consequence) (renameOption r alternative)
  | .fnLit line params body name =>
    .fnLit line (params.map (renameBinder r)) (rename r body) (name.map r)
  | .call line callee args => .call line (rename r callee) (renameAll r args)
  | .arrayLit line elements => .arrayLit line (renameAll r elements)
  | .hashLit line pairs => .hashLit line (renamePairs r pairs)
  | .index line left sub => .index line (rename r left) (rename r sub)
  | .intLit line value => .intLit line value
  | .strLit line value => .strLit line value
  | .boolLit line value => .boolLit line value
  | .foreign kind text => .foreign kind text

def renameOption (r : String → String) : Option Node → Option Node
  | none => none
  | some node => some (rename r node)

def renameAll (r : String → String) : List Node → List Node
  | [] => []
  | node :: rest => rename r node :: renameAll r rest

def renamePairs (r : String → String) : List (Node × Node) → List (Node × Node)
  | [] => []
  | (key, value) :: rest => (rename r key, rename r value) :: renamePairs r rest

end

theorem name?_renameBinder (r : String → String) (node : Node) :
    (node.renameBinder r).name? = node.name?.map r := by
  unfold renameBinder
  cases h : node.name? with
  | some name => rfl
  | none => exact h

theorem length_renameAll (r : String → String) (nodes : List Node) :
    (renameAll r nodes).length = nodes.length := by
  induction nodes with
  | nil => rfl
  | cons node rest ih => rw [renameAll, List.length_cons, List.length_cons, ih]

private theorem length_renamePairs (r : String → String) (pairs : List (Node × Node)) :
    (renamePairs r pairs).length = pairs.length := by
  induction pairs with
  | nil => rfl
  | cons pair rest ih => rw [renamePairs, List.length_cons, List.length_cons, ih]

end Node

/-- The only names in errors are those of variables that are not defined. -/
def CompileStop.rename (r : String → String) : CompileStop → CompileStop
  | .error ⟨.undefinedVariable name, line⟩ => .error ⟨.undefinedVariable (r name), line⟩
  | stop => stop

theorem CompileStop.raised_rename (r : String → String) (stop : CompileStop) :
    (stop.rename r).raised = stop.raised.rename r := by
  cases stop with
  | missing what => rfl
  | error e =>
    obtain ⟨cause, line⟩ := e
    cases cause with
    | literalRange value =>
      cases value with
      | other text => rfl
      | int n =>
        have hsame : rename r (.error ⟨.literalRange (.int n), line⟩) =
          .error ⟨.literalRange (.int n), line⟩ := rfl
        rw [hsame, raised]
        by_cases hw : Text.isWritable n = true
        · rw [if_pos hw, hsame]
        · rw [if_neg hw]
          rfl
    | _ => rfl

/-- The only names in constants are those of functions. -/
def Value.rename (r : String → String) : Value → Value
  | .function proto => .function { proto with name := proto.name.map r }
  | v => v

def Image.rename (r : String → String) (image : Image) : Image :=
  { image with constants := image.constants.map (Value.rename r) }

def Compiler.rename (r : String → String) (c : Compiler) : Compiler :=
  { c with constants := c.constants.map (Value.rename r), env := c.env.rename r }

def Action.rename (r : String → String) : Action → Action
  | .stop reason => .stop (reason.rename r)
  | .load line name => .load line (r name)
  | .bind name => .bind (r name)
  | .param name => .param (r name)
  | a => a

def Task.rename (r : String → String) : Task → Task
  | .action a => .action (a.rename r)
  | .enter name => .enter (name.map r)
  | .leave name params => .leave (name.map r) (params.map (Node.renameBinder r))
  | task => task

section Tasks

variable {r : String → String}

private theorem paramAction_renameBinder (node : Node) :
    (node.renameBinder r).paramAction = node.paramAction.rename r := by
  unfold Node.paramAction
  rw [Node.name?_renameBinder]
  cases node.name? <;> rfl

private theorem functionTasks_rename (name : Option String) (params : List Node)
    (body : List Task) :
    functionTasks (name.map r) (params.map (Node.renameBinder r)) (body.map (Task.rename r)) =
      (functionTasks name params body).map (Task.rename r) := by
  simp only [functionTasks, List.map_map, List.map_append, List.map_cons, List.map_nil,
    Function.comp_def, paramAction_renameBinder, Task.rename]

private theorem choiceTasks_rename (condition first second : List Task) :
    choiceTasks (condition.map (Task.rename r)) (first.map (Task.rename r))
        (second.map (Task.rename r)) =
      (choiceTasks condition first second).map (Task.rename r) := by
  simp only [choiceTasks, List.map_append, List.map_cons, List.map_nil, Task.rename]

variable (hr : IsRenaming r)

include hr

theorem IsRenaming.eq_empty_iff (name : String) : r name = "" ↔ name = "" := by
  constructor
  · exact fun h => hr.injective (h.trans hr.empty.symm)
  · rintro rfl
    exact hr.empty

theorem given?_map (name : Option String) : given? (name.map r) = (given? name).map r := by
  cases name with
  | none => rfl
  | some name =>
    rw [Option.map_some, given?_some, given?_some]
    by_cases h : name = ""
    · rw [if_pos h, if_pos ((hr.eq_empty_iff name).mpr h), Option.map_none]
    · rw [if_neg h, if_neg (mt (hr.eq_empty_iff name).mp h), Option.map_some]

private theorem bindingName_map (target : String) (name : Option String) :
    bindingName (r target) (name.map r) = (bindingName target name).map r := by
  have hb : (r target != "") = (target != "") := by
    rw [Bool.eq_iff_iff, bne_iff_ne, bne_iff_ne]
    exact not_congr (hr.eq_empty_iff target)
  unfold bindingName
  rw [given?_map hr, Option.isNone_map, hb]
  split <;> rfl

end Tasks

open Node

mutual

theorem tasksOfStmt_rename {r : String → String} (hr : IsRenaming r) : (node : Node) →
    tasksOfStmt (node.rename r) = (tasksOfStmt node).map (Task.rename r)
  | .exprStmt _ expr => by
    rw [rename, tasksOfStmt, tasksOfStmt, List.map_append, unbound_rename hr expr]
    rfl
  | .letStmt _ target value => by
    rw [rename, tasksOfStmt, tasksOfStmt, name?_renameBinder]
    cases target.name? with
    | none => rfl
    | some name =>
      simp only [Option.map_some, List.map_append, tasksOfExpr_rename hr value name]
      rfl
  | .returnStmt _ value => by
    rw [rename, tasksOfStmt, tasksOfStmt, tasksOfResult_rename hr value]
    simp only [List.map_append, List.map_cons]
    rfl
  | .block _ statements => tasksOfStmts_rename hr statements
  | .foreign .. | .program .. | .ident .. | .intLit .. | .strLit .. | .boolLit .. | .unary ..
  | .binary .. | .ifExpr .. | .fnLit .. | .call .. | .arrayLit .. | .hashLit .. | .index .. => rfl

theorem tasksOfResult_rename {r : String → String} (hr : IsRenaming r) : (value : Option Node) →
    tasksOfResult (renameOption r value) = (tasksOfResult value).map (Task.rename r)
  | none => rfl
  | some value => unbound_rename hr value

theorem tasksOfStmts_rename {r : String → String} (hr : IsRenaming r) : (nodes : List Node) →
    tasksOfStmts (renameAll r nodes) = (tasksOfStmts nodes).map (Task.rename r)
  | [] => rfl
  | node :: rest => by
    rw [renameAll, tasksOfStmts, tasksOfStmts, List.map_append, tasksOfStmt_rename hr node,
      tasksOfStmts_rename hr rest]

theorem tasksOfBlock_rename {r : String → String} (hr : IsRenaming r) : (node : Node) →
    tasksOfBlock (node.rename r) = (tasksOfBlock node).map (Task.rename r)
  | .block _ statements | .program _ statements => tasksOfStmts_rename hr statements
  | .foreign .. | .letStmt .. | .returnStmt .. | .exprStmt .. | .ident .. | .intLit ..
  | .strLit .. | .boolLit .. | .unary .. | .binary .. | .ifExpr .. | .fnLit .. | .call ..
  | .arrayLit .. | .hashLit .. | .index .. => rfl

theorem tasksOfBranch_rename {r : String → String} (hr : IsRenaming r) : (node : Option Node) →
    tasksOfBranch (renameOption r node) = (tasksOfBranch node).map (Task.rename r)
  | none => rfl
  | some node => tasksOfBlock_rename hr node

theorem unbound_rename {r : String → String} (hr : IsRenaming r) (node : Node) :
    tasksOfExpr "" (node.rename r) = (tasksOfExpr "" node).map (Task.rename r) := by
  have h := tasksOfExpr_rename hr node ""
  rwa [hr.empty] at h

theorem tasksOfExpr_rename {r : String → String} (hr : IsRenaming r) : (node : Node) →
    (target : String) →
    tasksOfExpr (r target) (node.rename r) = (tasksOfExpr target node).map (Task.rename r)
  | .ident .., _ | .intLit .., _ | .strLit .., _ | .boolLit .., _ => rfl
  | .unary _ _ right, _ => by
    rw [rename, tasksOfExpr, tasksOfExpr, List.map_append, unbound_rename hr right]
    rfl
  | .binary _ left op right, _ => by
    rw [rename, tasksOfExpr, tasksOfExpr, unbound_rename hr left, unbound_rename hr right]
    split <;> simp only [List.map_append] <;> rfl
  | .ifExpr _ condition first second, _ => by
    rw [rename, tasksOfExpr, tasksOfExpr, unbound_rename hr condition,
      tasksOfBranch_rename hr first, tasksOfBranch_rename hr second, choiceTasks_rename]
  | .fnLit _ params body name, target => by
    rw [rename, tasksOfExpr, tasksOfExpr, bindingName_map hr, tasksOfBlock_rename hr body,
      functionTasks_rename]
  | .call _ callee args, _ => by
    simp only [rename, tasksOfExpr, unbound_rename hr callee, tasksOfExprs_rename hr args,
      length_renameAll, List.map_append]
    rfl
  | .arrayLit _ elements, _ => by
    simp only [rename, tasksOfExpr, tasksOfExprs_rename hr elements, length_renameAll,
      List.map_append]
    rfl
  | .hashLit _ pairs, _ => by
    simp only [rename, tasksOfExpr, tasksOfPairs_rename hr pairs, length_renamePairs,
      List.map_append]
    rfl
  | .index _ left sub, _ => by
    rw [rename, tasksOfExpr, tasksOfExpr, List.map_append, List.map_append,
      unbound_rename hr left, unbound_rename hr sub]
    rfl
  | .foreign .., _ | .program .., _ | .letStmt .., _ | .returnStmt .., _ | .exprStmt .., _
  | .block .., _ => rfl

theorem tasksOfExprs_rename {r : String → String} (hr : IsRenaming r) : (nodes : List Node) →
    tasksOfExprs (renameAll r nodes) = (tasksOfExprs nodes).map (Task.rename r)
  | [] => rfl
  | node :: rest => by
    rw [renameAll, tasksOfExprs, tasksOfExprs, List.map_append, unbound_rename hr node,
      tasksOfExprs_rename hr rest]

theorem tasksOfPairs_rename {r : String → String} (hr : IsRenaming r) :
    (pairs : List (Node × Node)) →
    tasksOfPairs (renamePairs r pairs) = (tasksOfPairs pairs).map (Task.rename r)
  | [] => rfl
  | (key, value) :: rest => by
    rw [renamePairs, tasksOfPairs, tasksOfPairs, List.map_append, List.map_append,
      unbound_rename hr key, unbound_rename hr value, tasksOfPairs_rename hr rest]

end

/-- `y` does under other names what `x` does, and has the result that `f` makes of its result. -/
def Mirrors (r : String → String) {α β : Type} (f : α → β) (x : CompileM α) (y : CompileM β) : Prop :=
  ∀ c : Compiler, y (c.rename r) = match x c with
    | .ok a c' => .ok (f a) (c'.rename r)
    | .error e c' => .error (e.rename r) (c'.rename r)

namespace Mirrors

variable {r : String → String} {α β γ δ : Type} {f : α → β}

theorem bind {g : γ → δ} {x : CompileM α} {y : CompileM β} {k : α → CompileM γ}
    {l : β → CompileM δ} (h : Mirrors r f x y) (hk : ∀ a, Mirrors r g (k a) (l (f a))) :
    Mirrors r g (x >>= k) (y >>= l) := by
  intro c
  rw [EStateM.bind_apply, EStateM.bind_apply, h c]
  cases x c with
  | ok a c' => exact hk a c'
  | error e c' => rfl

theorem pure (a : α) : Mirrors r f (Pure.pure a) (Pure.pure (f a)) := fun _ => rfl

theorem throw (e : CompileStop) :
    Mirrors r f (throwThe CompileStop e : CompileM α) (throwThe CompileStop (e.rename r)) :=
  fun _ => rfl

theorem get : Mirrors r (Compiler.rename r) get get := fun _ => rfl

theorem discard {x : CompileM α} {y : CompileM β} (h : Mirrors r f x y) :
    Mirrors r id (Functor.discard x) (Functor.discard y) := by
  rw [EStateM.discard_eq, EStateM.discard_eq]
  exact h.bind fun _ => pure _

theorem emission : Mirrors r id CompileM.emission CompileM.emission := fun _ => rfl

theorem position : Mirrors r id CompileM.position CompileM.position := fun _ => rfl

theorem modifyEmission (edit : Emission → Emission) :
    Mirrors r id (CompileM.modifyEmission edit) (CompileM.modifyEmission edit) := fun _ => rfl

theorem need (what : Missing) (a : Option α) :
    Mirrors r id (CompileM.need what a) (CompileM.need what a) := by
  cases a with
  | none => exact throw (.missing what)
  | some a => exact pure a

theorem emitAt (op : Opcode) (operands : List Int) :
    Mirrors r id (CompileM.emitAt op operands) (CompileM.emitAt op operands) := by
  unfold CompileM.emitAt CompileM.emitOperands
  cases op.encode (operands.map .int) with
  | error e => exact throw (.error ⟨.encoding e, none⟩)
  | ok bytes => exact fun _ => rfl

theorem emit (op : Opcode) (operands : List Int) :
    Mirrors r id (CompileM.emit op operands) (CompileM.emit op operands) :=
  (emitAt op operands).discard

theorem editLast (edit : Emission → Emission) :
    Mirrors r id (CompileM.editLast edit) (CompileM.editLast edit) :=
  emission.bind fun em => (need .instruction em.last).discard.bind fun _ => modifyEmission edit

theorem patchHere (jump : Nat) : Mirrors r id (CompileM.patchHere jump) (CompileM.patchHere jump) := by
  refine position.bind fun n => emission.bind fun em => (need _ _).bind fun byte =>
    (need _ _).bind fun op => ?_
  dsimp only [id]
  split
  · exact throw (.error ⟨.encoding _, none⟩)
  · exact modifyEmission _

theorem addConstant (v : Value) :
    Mirrors r id (CompileM.addConstant v) (CompileM.addConstant (v.rename r)) := by
  intro c
  have hs : (c.rename r).constants.size = c.constants.size := Array.size_map
  have hp : (c.rename r).constants.push (v.rename r) =
    (c.constants.push v).map (Value.rename r) := Array.map_push.symm
  change EStateM.Result.ok _ _ = EStateM.Result.ok _ _
  rw [hs, hp]
  rfl

/-- A function that is added to the pool has its place there as its identity. -/
theorem addFunction {g g' : Nat → Prototype}
    (hg : ∀ id, Value.function (g' id) = (Value.function (g id)).rename r) :
    Mirrors r id (CompileM.addFunction g) (CompileM.addFunction g') := by
  intro c
  have hs : (c.rename r).constants.size = c.constants.size := Array.size_map
  have ha : ∀ (g : Nat → Prototype) (c : Compiler),
    CompileM.addFunction g c = CompileM.addConstant (.function (g c.constants.size)) c :=
    fun _ _ => rfl
  rw [ha, ha, hs, hg]
  exact addConstant _ c

theorem load (s : Symbol) : Mirrors r id (CompileM.load s) (CompileM.load (s.rename r)) := by
  unfold CompileM.load Symbol.rename
  cases s.storage <;> exact emit _ _

theorem store (s : Symbol) : Mirrors r id (CompileM.store s) (CompileM.store (s.rename r)) := by
  unfold CompileM.store Symbol.rename
  cases s.storage <;> exact emit _ _

theorem loads (symbols : List Symbol) :
    Mirrors r id (symbols.forM CompileM.load)
      ((symbols.map (Symbol.rename r)).forM CompileM.load) := by
  induction symbols with
  | nil => exact pure _
  | cons s rest ih => exact (load s).bind fun _ => ih

theorem finishBranch (start : Nat) :
    Mirrors r id (ClosureVM.finishBranch start) (ClosureVM.finishBranch start) := by
  refine emission.bind fun em => ?_
  dsimp only [id]
  split
  · exact editLast _
  · exact emit _ _

theorem compileReturn : Mirrors r id ClosureVM.compileReturn ClosureVM.compileReturn := by
  have hrest : Mirrors r id
      (do unless (← CompileM.emission).lastIs .returnValue do CompileM.emit .returnNull)
      (do unless (← CompileM.emission).lastIs .returnValue do CompileM.emit .returnNull) := by
    refine emission.bind fun em => ?_
    dsimp only [id]
    split
    · exact pure _
    · exact emit _ _
  refine emission.bind fun em => ?_
  dsimp only [id]
  split
  · exact (editLast _).bind fun _ => hrest
  · exact hrest

theorem leaveScope : Mirrors r id CompileM.leaveScope CompileM.leaveScope := by
  intro c
  unfold CompileM.leaveScope
  have ho : (c.rename r).outer = c.outer := rfl
  have he : (c.rename r).env.leave = c.env.leave.rename r := c.env.leave_rename
  simp only [EStateM.bind_apply, EStateM.get_apply, ho]
  cases c.outer with
  | nil => rfl
  | cons em outer =>
    rw [he]
    rfl

theorem closeFunction (name : Option String) (params : List Node) :
    Mirrors r id (ClosureVM.closeFunction name params)
      (ClosureVM.closeFunction (name.map r) (params.map (Node.renameBinder r))) := by
  refine compileReturn.bind fun _ => get.bind fun c => leaveScope.bind fun code => ?_
  have hc : (c.rename r).env.current = c.env.current.rename r := c.env.current_rename
  have hl : (c.env.current.rename r).free.length = c.env.current.free.length := List.length_map _
  rw [hc, id, makeFunction, makeFunction, hl, List.length_map]
  exact (loads _).bind fun _ => (addFunction fun _ => rfl).bind fun _ => emit _ _

variable (hr : IsRenaming r)

include hr

theorem define (name : String) :
    Mirrors r (Symbol.rename r) (CompileM.define name) (CompileM.define (r name)) := by
  intro c
  have hd := Environment.define_rename hr c.env name
  change EStateM.Result.ok ((c.env.rename r).define (r name)).1
    { c.rename r with env := ((c.env.rename r).define (r name)).2 } = _
  rw [hd]
  rfl

theorem resolve (name : String) (line : Line) :
    Mirrors r (Symbol.rename r) (CompileM.resolve name line) (CompileM.resolve (r name) line) := by
  intro c
  have hf : (c.rename r).env.resolve? (r name) =
      (c.env.resolve? name).map fun found => (found.1.rename r, found.2.rename r) :=
    Environment.resolve?_rename hr c.env name
  simp only [CompileM.resolve, EStateM.bind_apply, EStateM.get_apply, hf]
  cases c.env.resolve? name <;> rfl

theorem openScope (name : Option String) :
    Mirrors r id (ClosureVM.openScope name) (ClosureVM.openScope (name.map r)) := by
  have henter : Mirrors r id CompileM.enterScope CompileM.enterScope := fun _ => rfl
  unfold ClosureVM.openScope
  rw [given?_map hr]
  refine henter.bind fun _ => ?_
  cases given? name with
  | none => exact pure _
  | some name =>
    intro c
    have hd := Environment.defineFunctionName_rename hr c.env name
    change EStateM.Result.ok _ { c.rename r with
      env := (c.env.rename r).defineFunctionName (r name) } = _
    rw [hd]
    rfl

theorem action (a : Action) : Mirrors r id a.perform (a.rename r).perform := by
  cases a with
  | stop reason =>
    dsimp only [Action.rename, Action.perform]
    rw [reason.raised_rename]
    exact throw reason.raised
  | number line value =>
    cases value with
    | other text => exact throw (.error ⟨.literalRange (.other text), line⟩)
    | int n =>
      dsimp only [Action.rename, Action.perform, compileLiteral]
      split
      · exact (addConstant (.int n)).bind fun _ => emit _ _
      · have hthrow := throw (r := r) (f := @id Unit) (outOfRange line (.int n))
        rwa [outOfRange_eq_raised, ← CompileStop.raised_rename] at hthrow
  | text value => exact (addConstant (.str value)).bind fun _ => emit _ _
  | truth value => exact emit _ _
  | load line name => exact (resolve hr name line).bind fun s => load s
  | unary line op =>
    dsimp only [Action.rename, Action.perform]
    split
    · exact emit _ _
    · exact throw (.error ⟨.unknownOperator op, line⟩)
  | binary line op =>
    dsimp only [Action.rename, Action.perform]
    split
    · exact emit _ _
    · exact throw (.error ⟨.unknownOperator op, line⟩)
  | bind name => exact (define hr name).bind fun s => store s
  | param name => exact (define hr name).discard
  | inFunction line =>
    refine get.bind fun c => ?_
    rw [show (c.rename r).outer = c.outer from rfl]
    split
    · exact throw (.error ⟨.returnOutsideFunction, line⟩)
    · exact pure _
  | emit op operands _ => exact emit _ _

theorem task (t : Task) (js : List (List Jump)) :
    Mirrors r id (t.perform js) ((t.rename r).perform js) := by
  cases t with
  | action a => exact (action hr a).bind fun _ => pure js
  | enter name => exact (openScope hr name).bind fun _ => pure _
  | leave name params =>
    rcases js with _ | ⟨js, _ | ⟨js', rest⟩⟩
    · exact pure _
    · exact pure _
    · exact (closeFunction name params).bind fun _ => pure _
  | fork =>
    rcases js with _ | ⟨js, rest⟩
    · exact pure _
    · exact (emitAt _ _).bind fun p => position.bind fun _ => pure _
  | otherwise =>
    rcases js with _ | ⟨_ | ⟨j, js⟩, rest⟩
    · exact pure _
    · exact pure _
    · exact (finishBranch _).bind fun _ => (emitAt _ _).bind fun p => (patchHere _).bind fun _ =>
        position.bind fun _ => pure _
  | join =>
    rcases js with _ | ⟨_ | ⟨j, js⟩, rest⟩
    · exact pure _
    · exact pure _
    · exact (finishBranch _).bind fun _ => (patchHere _).bind fun _ => pure _

theorem performAll (tasks : List Task) (js : List (List Jump)) :
    Mirrors r id (ClosureVM.performAll tasks js)
      (ClosureVM.performAll (tasks.map (Task.rename r)) js) := by
  induction tasks generalizing js with
  | nil => exact pure js
  | cons t rest ih =>
    rw [List.map_cons, performAll_cons, performAll_cons]
    exact (task hr t js).bind fun js => ih js

theorem compileStmts (nodes : List Node) :
    Mirrors r id (ClosureVM.compileStmts nodes) (ClosureVM.compileStmts (renameAll r nodes)) := by
  rw [(compileStmts_performs nodes).eq_discard, (compileStmts_performs _).eq_discard,
    tasksOfStmts_rename hr]
  exact (performAll hr _ _).discard

end Mirrors

private theorem Compiler.rename_new {r : String → String} (hr : IsRenaming r) :
    Compiler.rename r {} = {} := by
  rw [Compiler.rename, Environment.rename, Table.builtins_rename hr, Array.map_empty]
  rfl

theorem Node.compile_program (line : Line) (statements : List Node) :
    (Node.program line statements).compile =
      match compileStmts statements {} with
      | .ok _ c => .ok (c.image, c.env.global.numDefinitions)
      | .error e _ => .error e := by
  have hrestart : Compiler.restart {} = {} := rfl
  simp only [Node.compile, compileProgram, hrestart]
  cases compileStmts statements {} with
  | ok u c => rfl
  | error stop c => cases stop <;> rfl

/-- A new compiler compiles a program under other names to the same code, with the same constants
but for the names of functions, or to the same error, in which the name is the other one. -/
theorem Node.compile_rename {r : String → String} (hr : IsRenaming r) (program : Node) :
    (program.rename r).compile =
      match program.compile with
      | .ok (image, numGlobals) => .ok (image.rename r, numGlobals)
      | .error e => .error (e.rename r) := by
  cases program with
  | program line statements =>
    have h := Mirrors.compileStmts hr statements {}
    rw [Compiler.rename_new hr] at h
    rw [Node.rename, compile_program, compile_program, h]
    cases compileStmts statements {} <;> rfl
  | _ => rfl

/-- Two names of variables can be exchanged. -/
def exchange (a b name : String) : String :=
  if name = a then b else if name = b then a else name

private theorem isRenaming_exchange {a b : String} (ha : a ≠ "") (hb : b ≠ "")
    (ha' : ∀ f : Builtin, f.name ≠ a) (hb' : ∀ f : Builtin, f.name ≠ b) :
    IsRenaming (exchange a b) where
  injective x y h := by
    unfold exchange at h
    split_ifs at h <;> simp_all
  builtin f := by rw [exchange, if_neg (ha' f), if_neg (hb' f)]
  empty := by rw [exchange, if_neg (Ne.symm ha), if_neg (Ne.symm hb)]

/-- `let x = 1; let f = fn(y) { fn() { x + y } };` -/
def adder (x y : String) : Node :=
  .program none
    [.letStmt none (.ident none x) (.intLit none (.int 1)),
     .letStmt none (.ident none "f") (.fnLit none [.ident none y] (.block none
       [.exprStmt none (.fnLit none [] (.block none
         [.exprStmt none (.binary none (.ident none x) "+" (.ident none y))]) none)]) none)]

theorem Node.compile_rename_adder :
    IsRenaming (exchange "x" "y") ∧
    ∃ image, (adder "x" "y").compile = .ok (image, 2) ∧
      (adder "y" "x").compile = .ok (image.rename (exchange "x" "y"), 2) := by
  have hr : IsRenaming (exchange "x" "y") := by
    refine isRenaming_exchange (by decide) (by decide) ?_ ?_ <;> intro f <;> cases f <;> decide
  have hn : (adder "x" "y").compile.toOption.map (·.2) = some 2 := by decide +kernel
  have hprogram : (adder "x" "y").rename (exchange "x" "y") = adder "y" "x" := by
    simp [adder, Node.rename, renameAll, renameBinder, Node.name?, Node.line, exchange]
  have h := Node.compile_rename hr (adder "x" "y")
  rw [hprogram] at h
  cases hc : (adder "x" "y").compile with
  | error e =>
    rw [hc] at hn
    cases hn
  | ok result =>
    obtain ⟨image, n⟩ := result
    rw [hc] at hn h
    cases hn
    exact ⟨hr, image, rfl, h⟩

end ClosureVM
