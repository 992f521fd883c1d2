import ClosureVM.Proofs.Evaluation.Realization

/-! The code of every phrase realizes its evaluation. -/
namespace ClosureVM

/-- The code of a phrase in its place: what its compilation leaves behind is part of the constants
and of the table that its function will have. -/
structure Situated (pool : Array Value) (final : Table) (d : Draft) (ps : List Piece)
    (d' : Draft) : Prop where
  orderly : d.env.Orderly
  fits : ∃ position, Piece.Fits position ps
  pool : Extends d'.constants pool
  grows : d'.env.current.Grows final

section

variable {pool : Array Value} {n : Nat} {final : Table} {d d₁ d' : Draft} {ps qs : List Piece}
  {phrase phrase' : Phrase}

theorem Situated.left (h : Situated pool final d (ps ++ qs) d') : Situated pool final d ps d' := by
  obtain ⟨position, hf⟩ := h.fits
  exact { h with fits := ⟨position, (Piece.fits_append.mp hf).1⟩ }

/-- What comes before a phrase in its place is in its place too. -/
theorem Situated.before (h : Situated pool final d₁ qs d') (ht : Translates phrase d₁ qs d')
    (ho : d.env.Orderly) {position : Nat} (hf : Piece.Fits position ps) :
    Situated pool final d ps d₁ := by
  obtain ⟨position', hf'⟩ := h.fits
  exact ⟨ho, ⟨position, hf⟩, (ht.leads h.orderly.closed hf').pool.trans h.pool,
    (ht.evolves h.orderly).2.grows.trans h.grows⟩

/-- Two phrases, one after the other. -/
theorem Situated.split (h : Situated pool final d (ps ++ qs) d') (h₁ : Translates phrase d ps d₁)
    (h₂ : Translates phrase' d₁ qs d') :
    Situated pool final d ps d₁ ∧ Situated pool final d₁ qs d' := by
  obtain ⟨position, hf⟩ := h.fits
  obtain ⟨hf₁, hf₂⟩ := Piece.fits_append.mp hf
  have hs₂ : Situated pool final d₁ qs d' :=
    { h with orderly := (h₁.evolves h.orderly).1, fits := ⟨_, hf₂⟩ }
  exact ⟨hs₂.before h₂ h.orderly hf₁, hs₂⟩

end

/-- Calls follow their evaluation. -/
def CallsFollow (pool : Array Value) (n : Nat) (call : Datum → List Datum → EvalM Datum) : Prop :=
  ∀ final env rest gs c p f callee ds vs temps, Agrees pool n final env gs c p →
    c.current.code = .op .call [vs.length] :: rest →
    c.current.temps = vs.reverse ++ callee :: temps → Denotes pool gs f callee →
    List.Forall₂ (Denotes pool gs) ds vs →
    Simulates pool n final env rest (Pushes pool temps) gs c (call f ds p)

/-- The code realizes the evaluation of the phrase. Without the `pop` of a last expression
statement, the value of statements stays on the stack. -/
def Phrase.Realized (pool : Array Value) (n : Nat) (final : Table)
    (call : Datum → List Datum → EvalM Datum) (env : Environment) (ps : List Piece)
    (env' : Environment) : Phrase → Prop
  | expr node => Realizes pool n final (Pushes pool) env ps env' (evalExpr call node)
  | exprs nodes =>
    Realizes pool n final (PushesAll pool nodes.length) env ps env' (evalExprs call nodes)
  | pairs ds =>
    Realizes pool n final (fun temps gs es => PushesAll pool (ds.length * 2) temps gs
      (Datum.flatten es)) env ps env' (evalPairs call ds)
  | phrase =>
    Realizes pool n final Unchanged env ps env' (phrase.evalAs call false) ∧
      ∀ qs, ps = qs ++ [.op .pop] →
        Realizes pool n final (Pushes pool) env qs env' (phrase.evalAs call true)

section

variable {pool : Array Value} {n : Nat} {final : Table}
  {call : Datum → List Datum → EvalM Datum} {env env' : Environment} {d d' : Draft}
  {ps qs : List Piece} {phrase : Phrase}

theorem Phrase.realized_stmts {statements : List Node} :
    (stmts statements).Realized pool n final call env ps env' ↔
      Realizes pool n final Unchanged env ps env' (evalStmts call false statements) ∧
        ∀ qs, ps = qs ++ [.op .pop] →
          Realizes pool n final (Pushes pool) env qs env' (evalStmts call true statements) := .rfl

theorem evalBranch_eq {node : Option Node} {statements : List Node}
    (h : Node.branchStatements? node = some statements) :
    evalBranch call node = evalStmts call true statements := by
  cases node with
  | none =>
    cases h
    rfl
  | some node =>
    cases node with
    | block line nodes | program line nodes =>
      cases h
      rfl
    | _ => cases h

/-- Statements as a branch. -/
theorem Phrase.Realized.asBranch {statements : List Node}
    (h : (Phrase.stmts statements).Realized pool n final call d.env ps d'.env)
    (ht : Translates (.stmts statements) d ps d') :
    Realizes pool n final (Pushes pool) d.env (Piece.asBranch ps) d'.env
      (evalStmts call true statements) := by
  by_cases hp : Piece.EndsInPop ps
  · obtain ⟨qs, rfl⟩ := hp
    rw [Piece.asBranch_concat_pop]
    exact h.2 qs rfl
  · have hkeep : evalStmts call true statements = evalStmts call false statements :=
      ht.evalAs_keep rfl hp call
    rw [Piece.asBranch_of_not_endsInPop hp, hkeep, ← bind_pure (evalStmts call false statements)]
    refine h.1.bind fun temps a rest gs c p ha hcode hpost => ?_
    obtain ⟨ht, rfl⟩ := hpost
    rw [← ht]
    exact Realizes.null rest gs c p ha hcode

/-- A call of the value below its arguments. -/
theorem Realizes.called {x : EvalM Datum} {y : EvalM (List Datum)} {env₁ : Environment} {k : Nat}
    (hcall : CallsFollow pool n call) (hx : Realizes pool n final (Pushes pool) env ps env₁ x)
    (hy : Realizes pool n final (PushesAll pool k) env₁ qs env' y) :
    Realizes pool n final (Pushes pool) env (ps ++ qs ++ [.op .call [k]]) env'
      (x >>= fun f => y >>= fun ds => call f ds) := by
  rw [← EvalM.both_bind x y fun fs => call fs.1 fs.2]
  refine (hx.both hy).bind fun temps fs rest gs c p ha hcode hpost => ?_
  obtain ⟨v, hf, vs, rfl, ht, hds⟩ := hpost
  exact hcall final env' rest gs c p _ v _ vs temps ha hcode ht hf hds

theorem execute_of_binaryOpcode? {op : String} {code : Opcode} (h : binaryOpcode? op = some code)
    (c : Config) : c.execute code 0 0 = c.binary (Value.operate code) := by
  unfold binaryOpcode? at h
  split at h <;> cases h <;> rfl

theorem EvalM.operate_eq {op : String} {f : Datum → Datum → Except Stop Datum}
    (h : Datum.binaryOperator? op = some f) (d e : Datum) :
    EvalM.operate op d e = EvalM.lift (f d e) := by
  rw [EvalM.operate, h]
  rfl

/-- The code of a phrase realizes its evaluation. -/
theorem Translates.realized (h : Translates phrase d ps d') (hcall : CallsFollow pool n call)
    (hs : Situated pool final d ps d') :
    phrase.Realized pool n final call d.env ps d'.env := by
  induction h with
  | @exprStmt _ expr d d' ps _ ih =>
    have hx : Realizes pool n final (Pushes pool) d.env ps d'.env (evalExpr call expr) := ih hs.left
    refine ⟨?_, fun qs hq => ?_⟩
    · rw [Phrase.evalAs, evalStmt]
      exact hx.dropped
    · rw [Phrase.evalAs, evalStmt]
      cases (List.append_inj' hq rfl).1
      exact (bind_pure (evalExpr call expr)).symm ▸ hx
  | @letStmt _ _ _ name d d' ps htarget hvalue ih =>
    obtain ⟨position, hf⟩ := hs.fits
    have hv : Situated pool final d ps d' :=
      ⟨hs.orderly, hs.left.fits, hs.pool,
        (Environment.Evolves.define d'.env name).grows.trans hs.grows⟩
    refine ⟨?_, fun qs hq => ?_⟩
    · rw [Phrase.evalAs, evalStmt_letStmt _ _ _ _ _ htarget]
      exact (ih hv).bound (hvalue.evolves hs.orderly).1.closed hs.grows
        (Piece.fits_append.mp hf).2
    · exact absurd (List.cons.inj (List.append_inj' hq rfl).2).1 (Symbol.store_ne_op _ rfl)
  | returnNull hn =>
    refine ⟨Realizes.null.returned hn, fun qs hq => ?_⟩
    have hq : [Piece.op .pushNull] ++ [.op .returnValue] = qs ++ [.op .pop] := hq
    cases (List.append_inj' hq rfl).2
  | returnValue hn hvalue ih =>
    refine ⟨(ih hs.left).returned ?_, fun qs hq => ?_⟩
    · obtain ⟨t, outer, hn⟩ := List.exists_cons_of_ne_nil hn
      obtain ⟨-, t', outer', hn', -⟩ := (hvalue.evolves hs.orderly).2.outer hn
      rw [hn']
      exact List.cons_ne_nil _ _
    · cases (List.append_inj' hq rfl).2
  | block _ ih => exact ih hs
  | noStmts => exact ⟨fun _ _ _ _ ha hcode => .pure ha hcode ⟨rfl, rfl⟩, fun qs hq => by simp at hq⟩
  | @stmts node rest d d₁ d' ps qs h₁ h₂ ih ih' =>
    obtain ⟨hs₁, hs₂⟩ := hs.split h₁ h₂
    have hx : (Phrase.stmt node).Realized pool n final call d.env ps d₁.env := ih hs₁
    have hy : (Phrase.stmts rest).Realized pool n final call d₁.env qs d'.env := ih' hs₂
    cases hr : allIdle rest with
    | true =>
      obtain ⟨rfl, rfl⟩ := h₂.eq_nil_of_allIdle hr
      have heq (keep : Bool) : evalStmts call keep (node :: rest) = evalStmt call keep node := by
        rw [evalStmts, if_pos hr]
      rw [List.append_nil, Phrase.realized_stmts, heq, heq]
      exact hx
    | false =>
      have heq (keep : Bool) : evalStmts call keep (node :: rest) =
          (do discard (evalStmt call false node); evalStmts call keep rest) := by
        rw [evalStmts, hr]
        rfl
      rw [Phrase.realized_stmts, heq, heq]
      refine ⟨hx.1.andThen hy.1, fun rs hrs => ?_⟩
      obtain ⟨ts, rfl, rfl⟩ := Piece.ends_of_append hrs (h₂.ne_nil_of_not_allIdle hr)
      exact hx.1.andThen (hy.2 ts rfl)
  | @intLit _ k d _ => exact .constant (hs.pool.getElem? Array.getElem?_push_size) fun _ => .int k
  | @strLit _ s d => exact .constant (hs.pool.getElem? Array.getElem?_push_size) fun _ => .str s
  | @boolLit _ b d => exact .bool b
  | ident hr _ =>
    obtain ⟨position, hf⟩ := hs.fits
    exact .name hs.orderly hr hs.grows hf
  | unary hop _ ih => exact (ih hs.left).unary hop
  | @less _ left right d d₁ d' ps qs h₁ h₂ ih ih' =>
    obtain ⟨hs₁, hs₂⟩ := hs.left.split h₁ h₂
    have hless : Datum.binaryOperator? "<" = some Datum.less := rfl
    have hcode : binaryOpcode? ">" = some .greaterThan := rfl
    rw [Phrase.Realized, evalExpr, if_pos rfl]
    simp only [EvalM.operate_eq hless]
    -- the right operand comes first, for both
    exact .binary (execute_of_binaryOpcode? hcode) (fun _ _ _ _ _ he hd => less_same hd he)
      (ih hs₁) (ih' hs₂)
  | binary hne hop h₁ h₂ ih ih' =>
    obtain ⟨hs₁, hs₂⟩ := hs.left.split h₁ h₂
    obtain ⟨f, hf, hsame⟩ := binaryOperator?_same hop
    rw [Phrase.Realized, evalExpr, if_neg hne]
    simp only [EvalM.operate_eq hf]
    exact .binary (execute_of_binaryOpcode? hop) (fun _ _ _ _ _ => hsame) (ih hs₁) (ih' hs₂)
  | ifExpr hfirst hsecond h₀ h₁ h₂ ih ih₁ ih₂ =>
    obtain ⟨position, hf⟩ := hs.fits
    obtain ⟨hf₀, ⟨hf₁, hf₂, -⟩, -⟩ := Piece.fits_append.mp hf
    have ho₁ := (h₀.evolves hs.orderly).1
    obtain ⟨ho₂, he₁⟩ := h₁.evolves ho₁
    obtain ⟨-, he₂⟩ := h₂.evolves ho₂
    have hs₂ : Situated pool final _ _ _ :=
      ⟨ho₂, ⟨_, Piece.fits_asBranch.mp hf₂⟩, hs.pool, hs.grows⟩
    have hs₁ := hs₂.before h₂ ho₁ (Piece.fits_asBranch.mp hf₁)
    have hs₀ := hs₁.before h₁ hs.orderly hf₀
    rw [Phrase.Realized, evalExpr, evalBranch_eq hfirst, evalBranch_eq hsecond,
      letsOfOption_eq hfirst, letsOfOption_eq hsecond]
    exact (ih hs₀).choice ((ih₁ hs₁).asBranch h₁) ((ih₂ hs₂).asBranch h₂) he₁ he₂ hs.grows
  | fnLit hparams hbody h hb _ _ =>
    obtain ⟨position, hf⟩ := hs.left.fits
    exact .function hs.orderly hparams hbody h hb hf hs.pool hs.grows
  | call h₁ h₂ ih ih' =>
    obtain ⟨hs₁, hs₂⟩ := hs.left.split h₁ h₂
    exact .called hcall (ih hs₁) (ih' hs₂)
  | arrayLit _ ih => exact .array (ih hs.left)
  | hashLit _ ih => exact .hash (ih hs.left)
  | index h₁ h₂ ih ih' =>
    obtain ⟨hs₁, hs₂⟩ := hs.left.split h₁ h₂
    exact .binary (fun _ => rfl) (fun gs _ _ _ _ hd he => (index_same hd he).mapError _)
      (ih hs₁) (ih' hs₂)
  | noExprs => exact .noOperands
  | exprs h₁ h₂ ih ih' =>
    obtain ⟨hs₁, hs₂⟩ := hs.split h₁ h₂
    exact .operands (ih hs₁) (ih' hs₂)
  | noPairs => exact .noPairs
  | pairs h₁ h₂ h₃ ih₁ ih₂ ih₃ =>
    obtain ⟨position, hf⟩ := hs.fits
    obtain ⟨hf, hf₃⟩ := Piece.fits_append.mp hf
    obtain ⟨hf₁, hf₂⟩ := Piece.fits_append.mp hf
    have ho₁ := (h₁.evolves hs.orderly).1
    have hs₃ : Situated pool final _ _ _ :=
      ⟨(h₂.evolves ho₁).1, ⟨_, hf₃⟩, hs.pool, hs.grows⟩
    have hs₂ := hs₃.before h₃ ho₁ hf₂
    have hs₁ := hs₂.before h₂ hs.orderly hf₁
    rw [Phrase.Realized, List.length_cons, Nat.add_one_mul]
    exact .pairs (ih₁ hs₁) (ih₂ hs₂) (ih₃ hs₃)

end

end ClosureVM
