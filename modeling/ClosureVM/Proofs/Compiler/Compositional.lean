import ClosureVM.Proofs.Code.Checking
import ClosureVM.Proofs.Compiler.Correspondence

/-! Every compilation is put together from few steps, so that what holds of these and is kept when
they follow one another holds of the compilation, however it ends. -/
namespace ClosureVM

/-- A property of computations that those have which write code and do nothing else, and that two
have together if both do. -/
structure Stepwise (P : (α : Type) → CompileM α → Prop) : Prop where
  writes {α : Type} (f : Compiler → α) (g : Emission → Emission) :
    P α fun c => .ok (f c) { c with emission := g c.emission }
  throw {α : Type} (e : CompileStop) : P α (throwThe CompileStop e)
  bind {α β : Type} {x : CompileM α} {f : α → CompileM β} :
    P α x → (∀ a, P β (f a)) → P β (x >>= f)

/-- A property that is kept also by what adds to constants and names. -/
structure Compositional (P : (α : Type) → CompileM α → Prop) : Prop extends Stepwise P where
  literal {v : Value} : v.IsLiteral → P Nat (CompileM.addConstant v)
  define (name : String) : P Symbol (CompileM.define name)
  resolve (name : String) (line : Line) : P Symbol (CompileM.resolve name line)
  function (name : Option String) (params : List Node) (body : Node) :
    P Unit (compileBlock body) → P Unit (compileFunction name params (compileBlock body))

namespace Stepwise

variable {P : (α : Type) → CompileM α → Prop} {α β : Type} (h : Stepwise P)
include h

theorem pure (a : α) : P α (Pure.pure a) := h.writes (fun _ => a) id

theorem get : P Compiler MonadState.get := h.writes id id

theorem andThen {x : CompileM α} {y : CompileM β} (hx : P α x) (hy : P β y) :
    P β (x >>= fun _ => y) := h.bind hx fun _ => hy

theorem discard {x : CompileM α} (hx : P α x) : P PUnit (Functor.discard x) := by
  rw [EStateM.discard_eq]
  exact h.andThen hx (h.pure _)

theorem need (what : Missing) : (a : Option α) → P α (CompileM.need what a)
  | none => h.throw _
  | some a => h.pure a

theorem emission : P Emission CompileM.emission := h.writes Compiler.emission id

theorem position : P Nat CompileM.position := h.writes (fun c => c.emission.code.size) id

theorem modifyEmission (g : Emission → Emission) : P Unit (CompileM.modifyEmission g) :=
  h.writes (fun _ => ()) g

theorem emitAt (op : Opcode) (operands : List Int) : P Nat (CompileM.emitAt op operands) := by
  unfold CompileM.emitAt CompileM.emitOperands
  split
  · exact h.throw _
  · exact h.writes (fun c => c.emission.code.size) fun em => em.emit op _

theorem emit (op : Opcode) (operands : List Int) : P Unit (CompileM.emit op operands) :=
  h.discard (h.emitAt op operands)

theorem editLast (g : Emission → Emission) : P Unit (CompileM.editLast g) :=
  h.bind h.emission fun _ => h.andThen (h.discard (h.need _ _)) (h.modifyEmission g)

theorem patchHere (jump : Nat) : P Unit (CompileM.patchHere jump) := by
  refine h.bind h.position fun n => h.bind h.emission fun em => h.bind (h.need _ _) fun byte =>
    h.bind (h.need _ _) fun op => ?_
  split
  · exact h.throw _
  · exact h.modifyEmission _

theorem load (s : Symbol) : P Unit (CompileM.load s) := by
  unfold CompileM.load
  split <;> exact h.emit _ _

theorem store (s : Symbol) : P Unit (CompileM.store s) := by
  unfold CompileM.store
  split <;> exact h.emit _ _

theorem forM {f : α → CompileM PUnit} (hf : ∀ a, P PUnit (f a)) :
    (l : List α) → P PUnit (l.forM f)
  | [] => h.pure _
  | a :: l => h.andThen (hf a) (forM hf l)

/-- An operator that is not known stops the compilation. -/
theorem operator (cause : CompileCause) (line : Line) : (code? : Option Opcode) →
    P Unit (match code? with
      | some op => CompileM.emit op
      | none => CompileM.fail cause line)
  | none => h.throw _
  | some _ => h.emit _ _

theorem compileBranch {x : CompileM Unit} (hx : P Unit x) : P Unit (compileBranch x) :=
  h.bind h.position fun _ => h.andThen hx <| h.bind h.emission fun em => by
    split
    · exact h.editLast _
    · exact h.emit _ _

theorem compileIf {x y z : CompileM Unit} (hx : P Unit x) (hy : P Unit y) (hz : P Unit z) :
    P Unit (compileIf x y z) :=
  h.andThen hx <| h.bind (h.emitAt _ _) fun _ => h.andThen (h.compileBranch hy) <|
    h.bind (h.emitAt _ _) fun _ => h.andThen (h.patchHere _) <|
      h.andThen (h.compileBranch hz) (h.patchHere _)

theorem compileReturn : P Unit compileReturn := by
  refine h.bind h.emission fun em => ?_
  have hrest : P Unit (do unless (← CompileM.emission).lastIs .returnValue do
      CompileM.emit .returnNull) :=
    h.bind h.emission fun em => by
      split
      · exact h.pure _
      · exact h.emit _ _
  split
  · exact h.andThen (h.editLast _) hrest
  · exact hrest

end Stepwise

namespace Compositional

variable {P : (α : Type) → CompileM α → Prop}

theorem unbound {node : Node} (hx : P Unit (compileExpr (node.boundTo ""))) :
    P Unit (compileExpr node) := by
  rwa [node.boundTo_empty] at hx

variable (h : Compositional P)
include h

theorem constant {v : Value} (hv : v.IsLiteral) :
    P Unit (CompileM.addConstant v >>= fun i => CompileM.emit .constant [(i : Int)]) :=
  h.bind (h.literal hv) fun _ => h.emit _ _

theorem number (line : Line) : (value : Numeral) → P Unit (compileLiteral line value)
  | .other _ => h.throw _
  | .int n => by
    rw [compileLiteral]
    by_cases hn : IsWord n
    · rw [if_pos hn]
      have hv : (Value.int n).IsLiteral := hn
      exact h.constant hv
    · rw [if_neg hn]
      exact h.throw _

mutual

theorem stmt : (node : Node) → P Unit (compileStmt node)
  | .exprStmt _ node => h.andThen (unbound (expr node "")) (h.emit _ _)
  | .letStmt _ target value => by
    rw [compileStmt_letStmt]
    exact h.bind (h.need _ _) fun name => h.andThen (expr value name) <|
      h.bind (h.define _) fun _ => h.store _
  | .returnStmt _ value => h.bind h.get fun c => by
    have hv := h.andThen (result value) (h.emit .returnValue [])
    split
    · exact h.andThen (h.throw _) hv
    · exact hv
  | .block _ statements => stmts statements
  | .foreign .. | .program .. | .intLit .. | .strLit .. | .boolLit .. | .ident .. | .unary ..
  | .binary .. | .ifExpr .. | .fnLit .. | .call .. | .arrayLit .. | .hashLit .. | .index .. =>
    h.throw _

theorem result : (value : Option Node) → P Unit (compileResult value)
  | none => h.emit _ _
  | some value => unbound (expr value "")

theorem stmts : (nodes : List Node) → P Unit (compileStmts nodes)
  | [] => h.pure _
  | node :: rest => h.andThen (stmt node) (stmts rest)

theorem block : (node : Node) → P Unit (compileBlock node)
  | .block _ statements | .program _ statements => stmts statements
  | .foreign .. | .letStmt .. | .returnStmt .. | .exprStmt .. | .intLit .. | .strLit ..
  | .boolLit .. | .ident .. | .unary .. | .binary .. | .ifExpr .. | .fnLit .. | .call ..
  | .arrayLit .. | .hashLit .. | .index .. => h.throw _

theorem optional : (node : Option Node) → P Unit (compileOptional node)
  | none => h.pure _
  | some node => block node

theorem expr : (node : Node) → (name : String) → P Unit (compileExpr (node.boundTo name))
  | .intLit line value, _ => h.number line value
  | .strLit _ value, _ => h.constant (v := .str value) trivial
  | .boolLit _ value, _ => h.emit _ _
  | .ident line name, _ => h.bind (h.resolve name line) fun s => h.load s
  | .unary line op right, _ =>
    h.andThen (unbound (expr right "")) (h.operator (.unknownOperator op) line (unaryOpcode? op))
  | .binary line left op right, _ => by
    change P Unit (compileExpr (.binary line left op right))
    rw [compileExpr]
    have hl := unbound (expr left "")
    have hr := unbound (expr right "")
    split
    · exact h.andThen hr (h.andThen hl (h.emit _ _))
    · exact h.andThen hl
        (h.andThen hr (h.operator (.unknownOperator op) line (binaryOpcode? op)))
  | .ifExpr _ condition first second, _ =>
    h.compileIf (unbound (expr condition "")) (optional first) (optional second)
  | .fnLit _ params body name, _ => h.function _ _ body (block body)
  | .call _ callee args, _ =>
    h.andThen (unbound (expr callee "")) (h.andThen (exprs args) (h.emit _ _))
  | .arrayLit _ elements, _ => h.andThen (exprs elements) (h.emit _ _)
  | .hashLit _ nodes, _ => h.andThen (pairs nodes) (h.emit _ _)
  | .index _ left sub, _ =>
    h.andThen (unbound (expr left "")) (h.andThen (unbound (expr sub "")) (h.emit _ _))
  | .foreign .., _ | .program .., _ | .letStmt .., _ | .returnStmt .., _ | .exprStmt .., _
  | .block .., _ => h.throw _

theorem exprs : (nodes : List Node) → P Unit (compileExprs nodes)
  | [] => h.pure _
  | node :: rest => h.andThen (unbound (expr node "")) (exprs rest)

theorem pairs : (nodes : List (Node × Node)) → P Unit (compilePairs nodes)
  | [] => h.pure _
  | (key, value) :: rest =>
    h.andThen (unbound (expr key "")) (h.andThen (unbound (expr value "")) (pairs rest))

end

end Compositional

end ClosureVM
