import ClosureVM.Proofs.Compiler.Functions
import ClosureVM.Proofs.Effects
import ClosureVM.Proofs.Evaluation.Evaluator

/-! What the code of statements tells about their evaluation: whether there are any, whether the
last one has a value, and whether it returns. -/
namespace ClosureVM

open Piece

theorem Piece.ends_of_append {ps qs rs : List Piece} {p : Piece} (h : ps ++ qs = rs ++ [p])
    (hq : qs ≠ []) : ∃ ts, qs = ts ++ [p] ∧ rs = ps ++ ts := by
  cases qs using List.reverseRecOn with
  | nil => exact absurd rfl hq
  | append_singleton ts q =>
    rw [← List.append_assoc] at h
    obtain ⟨hr, hp⟩ := List.append_inj' h rfl
    cases hp
    exact ⟨ts, rfl, hr.symm⟩

theorem Symbol.store_ne_op (s : Symbol) {op : Opcode} (hw : op.widths = []) : s.store ≠ .op op := by
  intro h
  unfold Symbol.store at h
  split at h <;> cases h

namespace Phrase

/-- The evaluation of statements. -/
def evalAs (call : Datum → List Datum → EvalM Datum) (keep : Bool) : Phrase → EvalM Datum
  | stmt node => evalStmt call keep node
  | stmts nodes => evalStmts call keep nodes
  | _ => throw .meaningless

def isIdle : Phrase → Bool
  | stmt node => node.isIdle
  | stmts nodes => allIdle nodes
  | _ => false

end Phrase

theorem evalStmt_letStmt (call : Datum → List Datum → EvalM Datum) (keep : Bool) (line : Line)
    (target value : Node) {name : String} (h : target.name? = some name) :
    evalStmt call keep (.letStmt line target value) = do
      EvalM.bindName name (← evalExpr call (value.boundTo name))
      return .null := by
  cases value <;> simp only [evalStmt, evalExpr, Node.boundTo, h] <;> rfl

namespace Translates

variable {phrase : Phrase} {d d' : Draft} {ps : List Piece}

/-- Blocks without statements inside have no code, all other statements do. -/
theorem idle (h : Translates phrase d ps d') (hs : phrase.isStatement) :
    if phrase.isIdle then ps = [] ∧ d' = d else ps ≠ [] := by
  induction h with
  | exprStmt _ _ | returnValue _ _ _ | letStmt _ _ _ =>
    exact List.append_ne_nil_of_right_ne_nil _ nofun
  | returnNull _ => exact List.cons_ne_nil _ _
  | block _ ih => exact ih rfl
  | noStmts => exact ⟨rfl, rfl⟩
  | @stmts node rest d d₁ d' ps qs _ _ ih ih' =>
    have h₁ := ih rfl
    have h₂ := ih' rfl
    change if node.isIdle && allIdle rest then ps ++ qs = [] ∧ d' = d else ps ++ qs ≠ []
    change if node.isIdle then ps = [] ∧ d₁ = d else ps ≠ [] at h₁
    change if allIdle rest then qs = [] ∧ d' = d₁ else qs ≠ [] at h₂
    cases hn : node.isIdle with
    | false =>
      rw [hn] at h₁
      exact List.append_ne_nil_of_left_ne_nil h₁ _
    | true =>
      rw [hn] at h₁
      obtain ⟨rfl, rfl⟩ := h₁
      exact h₂
  | _ => cases hs

theorem eq_nil_of_allIdle {nodes : List Node} (h : Translates (.stmts nodes) d ps d')
    (hi : allIdle nodes = true) : ps = [] ∧ d' = d := by
  have := h.idle rfl
  rwa [Phrase.isIdle, if_pos hi] at this

theorem ne_nil_of_not_allIdle {nodes : List Node} (h : Translates (.stmts nodes) d ps d')
    (hi : allIdle nodes = false) : ps ≠ [] := by
  have := h.idle rfl
  rwa [Phrase.isIdle, hi] at this

/-- Without a last expression statement there is no value to keep. -/
theorem evalAs_keep (h : Translates phrase d ps d') (hs : phrase.isStatement)
    (hp : ¬ EndsInPop ps) (call : Datum → List Datum → EvalM Datum) :
    phrase.evalAs call true = phrase.evalAs call false := by
  induction h with
  | @exprStmt _ _ _ _ ps _ _ => exact absurd ⟨ps, rfl⟩ hp
  | letStmt ht _ _ =>
    exact (evalStmt_letStmt _ _ _ _ _ ht).trans (evalStmt_letStmt _ _ _ _ _ ht).symm
  | returnNull _ | returnValue _ _ _ => rfl
  | block _ ih => exact ih rfl hp
  | noStmts => rfl
  | @stmts node rest _ _ _ ps qs _ hrest ih ih' =>
    change evalStmts call true (node :: rest) = evalStmts call false (node :: rest)
    rw [evalStmts, evalStmts]
    cases hr : allIdle rest with
    | true =>
      obtain ⟨rfl, -⟩ := hrest.eq_nil_of_allIdle hr
      exact ih rfl (by simpa using hp)
    | false =>
      have hq : ¬ EndsInPop qs := by
        rintro ⟨ts, rfl⟩
        exact hp ⟨ps ++ ts, (List.append_assoc ..).symm⟩
      have hkeep : evalStmts call true rest = evalStmts call false rest := ih' rfl hq
      rw [hkeep]
      rfl
  | _ => cases hs

/-- Statements that end in a return do not come to their end. -/
theorem evalAs_ne_ok (h : Translates phrase d ps d') (hs : phrase.isStatement)
    (hp : EndsInReturn ps) (call : Datum → List Datum → EvalM Datum) (keep : Bool)
    (p p' : Progress) (a : Datum) : phrase.evalAs call keep p ≠ .ok a p' := by
  induction h generalizing p with
  | exprStmt _ _ =>
    obtain ⟨qs, hq⟩ := hp
    cases (List.append_inj' hq rfl).2
  | letStmt _ _ _ =>
    obtain ⟨qs, hq⟩ := hp
    exact absurd (List.cons.inj (List.append_inj' hq rfl).2).1 (Symbol.store_ne_op _ rfl)
  | returnNull _ | returnValue _ _ _ =>
    intro hok
    obtain ⟨_, _, -, hthrow⟩ := EStateM.bind_eq_ok.mp hok
    cases hthrow
  | block _ ih => exact ih rfl hp p
  | noStmts =>
    obtain ⟨qs, hq⟩ := hp
    simp at hq
  | @stmts node rest _ _ _ ps qs _ hrest ih ih' =>
    change evalStmts call keep (node :: rest) p ≠ _
    rw [evalStmts]
    cases hr : allIdle rest with
    | true =>
      obtain ⟨rfl, -⟩ := hrest.eq_nil_of_allIdle hr
      exact ih rfl (by simpa using hp) p
    | false =>
      obtain ⟨rs, hrs⟩ := hp
      obtain ⟨ts, rfl, -⟩ := ends_of_append hrs (hrest.ne_nil_of_not_allIdle hr)
      intro hok
      obtain ⟨_, p₁, -, hok⟩ := EStateM.bind_eq_ok.mp hok
      exact ih' rfl ⟨ts, rfl⟩ p₁ hok
  | _ => cases hs

end Translates

end ClosureVM
