import ClosureVM.Proofs.Compiler.Checked

/-! The code of a phrase is put together in few ways, whatever the phrase. -/
namespace ClosureVM

/-- Opcodes that refer to no constant, no variable and no other code. -/
def Opcode.isInert : Opcode → Bool
  | .constant | .jump | .jumpNotTruthy | .getGlobal | .setGlobal | .getLocal | .setLocal
  | .getBuiltin | .getFree | .currentClosure | .closure => false
  | _ => true

theorem Opcode.isInert_of_isUnary {op : Opcode} (h : op.isUnary) : op.isInert := by
  cases op <;> first | rfl | cases h

theorem Opcode.isInert_of_isBinary {op : Opcode} (h : op.isBinary) : op.isInert := by
  cases op <;> first | rfl | cases h

/-- What holds of the parts of code and is kept when they are put together holds of the code of
every phrase. -/
theorem Translates.compose {P : Draft → List Piece → Draft → Prop} {phrase : Phrase}
    {d d' : Draft} {ps : List Piece} (h : Translates phrase d ps d')
    (nil : ∀ d, P d [] d)
    (append : ∀ {d d₁ d' ps qs}, P d ps d₁ → P d₁ qs d' → P d (ps ++ qs) d')
    (inert : ∀ d op operands, op.isInert → P d [.op op operands] d)
    (literal : ∀ d v, v.IsLiteral → P d [.op .constant [d.constants.size]] (d.addConstant v))
    (load : ∀ {d name s env}, d.env.resolve? name = some (s, env) →
      P d [s.load] { d with env })
    (define : ∀ d name, P d [(d.env.define name).1.store] (d.define name))
    (branch : ∀ {d d₁ d' ts es}, P d ts d₁ → P d₁ es d' →
      P d [.branch (Piece.asBranch ts) (Piece.asBranch es)] d')
    (function : ∀ {params names statements name d ps d'}, params.mapM Node.name? = some names →
      Translates (.stmts statements) (d.enter name names) ps d' → P (d.enter name names) ps d' →
      Piece.Fits 0 (Piece.asBody ps) →
      P d (d'.env.current.free.map Symbol.load ++
          [.op .closure [d'.constants.size, d'.env.current.free.length]])
        (d'.leave (.ofBody d' ps params name))) :
    P d ps d' := by
  induction h with
  | exprStmt _ ih => exact append ih (inert _ _ _ rfl)
  | letStmt _ _ ih => exact append ih (define _ _)
  | returnNull _ =>
    exact @append _ _ _ [.op .pushNull] [.op .returnValue] (inert _ _ _ rfl) (inert _ _ _ rfl)
  | returnValue _ _ ih => exact append ih (inert _ _ _ rfl)
  | block _ ih => exact ih
  | noStmts | noExprs | noPairs => exact nil _
  | stmts _ _ ih₁ ih₂ | exprs _ _ ih₁ ih₂ => exact append ih₁ ih₂
  | intLit hn => exact literal _ _ hn
  | strLit => exact literal _ _ trivial
  | @boolLit _ b _ => exact inert _ _ _ (by cases b <;> rfl)
  | ident hr _ => exact load hr
  | unary hop _ ih =>
    exact append ih (inert _ _ _ (Opcode.isInert_of_isUnary (isUnary_of_unaryOpcode? hop)))
  | less _ _ ih₁ ih₂ => exact append (append ih₁ ih₂) (inert _ _ _ rfl)
  | binary _ hop _ _ ih₁ ih₂ =>
    exact append (append ih₁ ih₂)
      (inert _ _ _ (Opcode.isInert_of_isBinary (isBinary_of_binaryOpcode? hop)))
  | ifExpr _ _ _ _ _ ihc iht ihe => exact append ihc (branch iht ihe)
  | fnLit hnames _ ht hb _ ih => exact function hnames ht ih hb
  | call _ _ ih₁ ih₂ | index _ _ ih₁ ih₂ => exact append (append ih₁ ih₂) (inert _ _ _ rfl)
  | arrayLit _ ih | hashLit _ ih => exact append ih (inert _ _ _ rfl)
  | pairs _ _ _ ih₁ ih₂ ih₃ => exact append (append ih₁ ih₂) ih₃

end ClosureVM
