import ClosureVM.Proofs.Compiler.Checked
import ClosureVM.Proofs.Evaluation.Evaluator
import ClosureVM.Proofs.Symbol.Capture

/-! Compiling a phrase makes the bindings that its evaluation makes, in the same order. -/
namespace ClosureVM

/-- The names that are bound in a phrase, in the order of evaluation. -/
def Phrase.lets : Phrase → List String
  | .stmt node | .expr node => node.lets
  | .stmts nodes | .exprs nodes => letsOfAll nodes
  | .pairs ps => letsOfPairs ps

private theorem Node.lets_boundTo (node : Node) (name : String) :
    (node.boundTo name).lets = node.lets := by
  cases node <;> rfl

theorem letsOfOption_eq {node : Option Node} {statements : List Node}
    (h : Node.branchStatements? node = some statements) :
    letsOfOption node = letsOfAll statements := by
  cases node with
  | none =>
    cases h
    rfl
  | some node =>
    cases node with
    | block line nodes | program line nodes =>
      cases h
      rfl
    | _ => cases h

namespace Environment

variable {env env' : Environment}

theorem Orderly.define (h : env.Orderly) (name : String) : (env.define name).2.Orderly := by
  refine ⟨(h.closed.define name).1, ?_⟩
  have hl := h.linked
  cases hn : env.nested with
  | nil =>
    rw [define_nil hn]
    trivial
  | cons t outer =>
    rw [hn] at hl
    rw [define_cons hn]
    exact ⟨hl.1, hl.2⟩

/-- A function inside leaves captures behind. -/
theorem Orderly.leave (h : env'.Orderly) {t : Table} {names : List String}
    (he : Evolves { env with nested := t :: env.nested } names env') :
    env'.leave.Orderly ∧ env.Captures env'.leave := by
  obtain ⟨hg, t', outer', hn, hc⟩ := he.outer rfl
  have hleave : env'.leave = { env with nested := outer' } := by
    rw [Environment.leave, hn, hg]
    rfl
  obtain ⟨hglobal, htables⟩ := h.closed
  have hlinked := h.linked
  rw [hn] at htables hlinked
  rw [hleave]
  exact ⟨⟨⟨hg ▸ hglobal, htables.2.2⟩, hlinked.2⟩, rfl, hc⟩

end Environment

theorem Draft.enter_orderly {d : Draft} (h : d.env.Orderly) (name : Option String)
    (names : List String) :
    (d.enter name names).env.Orderly ∧
      ∃ t, (d.enter name names).env = { d.env with nested := t :: d.env.nested } := by
  obtain ⟨t, he, ht, hf, -⟩ := Draft.enter_closed h.closed name names
  refine ⟨?_, t, he⟩
  rw [he]
  exact ⟨⟨h.closed.global, ht, by simp [hf], h.closed.nested⟩, by simp [hf], h.linked⟩

theorem Translates.evolves {phrase : Phrase} {d d' : Draft} {ps : List Piece}
    (h : Translates phrase d ps d') (hd : d.env.Orderly) :
    d'.env.Orderly ∧ d.env.Evolves phrase.lets d'.env := by
  induction h with
  | exprStmt _ ih => exact ih hd
  | @letStmt _ _ value name _ d' _ htarget _ ih =>
    obtain ⟨hd', he⟩ := ih hd
    refine ⟨hd'.define name, ?_⟩
    simp only [Phrase.lets, Node.lets, htarget, Node.lets_boundTo] at he ⊢
    exact he.trans (.define d'.env name)
  | returnNull _ => exact ⟨hd, .refl _⟩
  | returnValue _ _ ih => exact ih hd
  | block _ ih => exact ih hd
  | noStmts | noExprs | noPairs => exact ⟨hd, .refl _⟩
  | stmts _ _ ih ih' | exprs _ _ ih ih' | call _ _ ih ih' | index _ _ ih ih' =>
    obtain ⟨hd₁, he⟩ := ih hd
    obtain ⟨hd₂, he'⟩ := ih' hd₁
    exact ⟨hd₂, he.trans he'⟩
  | intLit _ | strLit | boolLit => exact ⟨hd, .refl _⟩
  | ident hr _ =>
    obtain ⟨hd', hc, -⟩ := hd.resolve? hr
    exact ⟨hd', .captures hc⟩
  | unary _ _ ih | arrayLit _ ih | hashLit _ ih => exact ih hd
  | less _ _ ih ih' =>
    obtain ⟨hd₁, he⟩ := ih hd
    obtain ⟨hd₂, he'⟩ := ih' hd₁
    simp only [Phrase.lets, Node.lets, if_true]
    exact ⟨hd₂, he.trans he'⟩
  | binary hop _ _ _ ih ih' =>
    obtain ⟨hd₁, he⟩ := ih hd
    obtain ⟨hd₂, he'⟩ := ih' hd₁
    simp only [Phrase.lets, Node.lets, if_neg hop]
    exact ⟨hd₂, he.trans he'⟩
  | ifExpr hfirst hsecond _ _ _ ih ih₁ ih₂ =>
    obtain ⟨hd₁, he⟩ := ih hd
    obtain ⟨hd₂, he₁⟩ := ih₁ hd₁
    obtain ⟨hd₃, he₂⟩ := ih₂ hd₂
    simp only [Phrase.lets, Node.lets, letsOfOption_eq hfirst, letsOfOption_eq hsecond]
    exact ⟨hd₃, (he.trans he₁).trans he₂⟩
  | @fnLit _ _ names _ _ name d d' _ _ _ _ _ _ ih =>
    obtain ⟨hd₁, t, ht⟩ := Draft.enter_orderly hd name names
    obtain ⟨hd', he⟩ := ih hd₁
    rw [ht] at he
    obtain ⟨hd'', hc⟩ := hd'.leave he
    exact ⟨hd'', .captures hc⟩
  | pairs _ _ _ ih₁ ih₂ ih₃ =>
    obtain ⟨hd₁, he₁⟩ := ih₁ hd
    obtain ⟨hd₂, he₂⟩ := ih₂ hd₁
    obtain ⟨hd₃, he₃⟩ := ih₃ hd₂
    exact ⟨hd₃, (he₁.trans he₂).trans he₃⟩

end ClosureVM
