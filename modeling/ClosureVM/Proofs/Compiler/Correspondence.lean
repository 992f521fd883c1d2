import ClosureVM.Proofs.Compiler.Functions
import ClosureVM.Session

/-! A compilation writes the translation of a program, and succeeds iff that can be written. -/
namespace ClosureVM

namespace Node

theorem boundTo_empty (node : Node) : node.boundTo "" = node := by
  cases node with
  | fnLit line params body name => simp [boundTo, bindingName]
  | _ => rfl

end Node

theorem compileStmt_letStmt (line : Line) (target value : Node) :
    compileStmt (.letStmt line target value) = (do
      let name ← nameOf target
      compileExpr (value.boundTo name)
      let s ← CompileM.define name
      CompileM.store s) := by
  cases value <;> simp only [compileStmt, Node.boundTo, compileExpr]

private theorem Environment.index_define (env : Environment) (name : String) :
    0 ≤ (env.define name).1.index := by
  unfold Environment.define
  split <;> exact Int.natCast_nonneg _

/-- Captures define nothing. -/
theorem Environment.numDefinitions_resolveIn {global : Table} {name : String}
    {nested nested' : List Table} {s : Symbol}
    (h : resolveIn global name nested = some (s, nested')) :
    nested'.map Table.numDefinitions = nested.map Table.numDefinitions := by
  induction nested generalizing s nested' with
  | nil =>
    obtain ⟨_, -, ⟨⟩⟩ := Option.map_eq_some_iff.mp h
    rfl
  | cons t outer ih =>
    rw [resolveIn] at h
    split at h
    · cases h
      rfl
    · split at h
      · cases h
      · rename_i u outer' hr
        have ho := ih hr
        split at h
        · cases h
          rw [List.map_cons, List.map_cons, ho]
        · cases h
          rw [List.map_cons, List.map_cons, ho]
          rfl

theorem Environment.length_resolveIn {global : Table} {name : String} {nested nested' : List Table}
    {s : Symbol} (h : resolveIn global name nested = some (s, nested')) :
    nested'.length = nested.length := by
  simpa using congrArg List.length (numDefinitions_resolveIn h)

private theorem unaryOpcode?_plain {op : String} {code : Opcode} (h : unaryOpcode? op = some code) :
    code.isPlain := by
  unfold unaryOpcode? at h
  split at h <;> cases h <;> rfl

private theorem binaryOpcode?_plain {op : String} {code : Opcode}
    (h : binaryOpcode? op = some code) : code.isPlain := by
  unfold binaryOpcode? at h
  split at h <;> cases h <;> rfl

namespace Implements

variable {line : Line} {node left right : Node}

theorem bind_fails {α β : Type} {x : CompileM α} {f : α → CompileM β}
    (hf : ∀ a c, ∃ e c', f a c = .error e c') (c : Compiler) :
    ∃ e c', (x >>= f) c = .error e c' := by
  rw [EStateM.bind_apply]
  cases x c with
  | ok a c₁ => exact hf a c₁
  | error e c₁ => exact ⟨e, c₁, rfl⟩

/-- A phrase that is never compiled has no translation. -/
theorem fails {b : Bool} {x : CompileM Unit} {T : Draft → List Piece → Draft → Prop}
    (hx : ∀ c, ∃ e c', x c = .error e c') (hT : ∀ d ps d', ¬ T d ps d') : Implements b x T where
  sound {c c'} _ h := by
    obtain ⟨e, c₁, he⟩ := hx c
    cases h.symm.trans he
  complete _ ht _ := absurd ht (hT _ _ _)

theorem constant (v : Value) :
    Implements false (do CompileM.emit .constant [← CompileM.addConstant v]) fun d ps d' =>
      ps = [.op .constant [d.constants.size]] ∧ d' = d.addConstant v := by
  have hacts : Acts (CompileM.addConstant v) fun d => some (d.constants.size, d.addConstant v) :=
    fun _ => ⟨rfl, rfl⟩
  refine (bind hacts fun i : Nat => @emit false .constant rfl [i]).congr fun d ps d' => ?_
  constructor
  · rintro ⟨i, d₁, hi, rfl, rfl⟩
    cases hi
    exact ⟨rfl, rfl⟩
  · rintro ⟨rfl, rfl⟩
    exact ⟨_, _, rfl, rfl, rfl⟩

theorem exprStmt (h : Implements false (compileExpr node) (Translates (.expr node))) :
    Implements true (compileStmt (.exprStmt line node))
      (Translates (.stmt (.exprStmt line node))) := by
  rw [compileStmt]
  refine (h.seq (@emit true .pop rfl []) fun _ => ⟨rfl, .inr ?_⟩).congr fun d ps d' => ?_
  · rintro d d' ⟨h, -⟩
    cases h
  constructor
  · rintro ⟨d₁, qs, rs, h, ⟨rfl, rfl⟩, rfl⟩
    exact .exprStmt h
  · intro h
    cases h with
    | exprStmt h => exact ⟨_, _, _, h, ⟨rfl, rfl⟩, rfl⟩

theorem letStmt {target : Node} (h : ∀ name,
    Implements false (compileExpr (node.boundTo name)) (Translates (.expr (node.boundTo name)))) :
    Implements true (compileStmt (.letStmt line target node))
      (Translates (.stmt (.letStmt line target node))) := by
  rw [compileStmt_letStmt]
  have hstore : ∀ name, Implements true (CompileM.define name >>= CompileM.store) fun d ps d' =>
      ps = [(d.env.define name).1.store] ∧ d' = d.define name := by
    intro name
    refine (bind (acts_define name) store).congr fun d ps d' => ?_
    constructor
    · rintro ⟨s, d₁, hs, -, rfl, rfl⟩
      cases hs
      exact ⟨rfl, rfl⟩
    · rintro ⟨rfl, rfl⟩
      exact ⟨_, _, rfl, d.env.index_define name, rfl, rfl⟩
  refine (bind (acts_nameOf target) fun name => (h name).seq (hstore name) fun _ =>
    ⟨rfl, .inr ?_⟩).congr fun d ps d' => ?_
  · rintro d d' ⟨h, -⟩
    cases h
  constructor
  · rintro ⟨name, d₀, hname, d₁, qs, rs, h, ⟨rfl, rfl⟩, rfl⟩
    obtain ⟨_, hn, ⟨⟩⟩ := Option.map_eq_some_iff.mp hname
    exact .letStmt hn h
  · intro h
    cases h with
    | letStmt hname h =>
      exact ⟨_, _, Option.map_eq_some_iff.mpr ⟨_, hname, rfl⟩, _, _, _, h, ⟨rfl, rfl⟩, rfl⟩

/-- A return statement is compiled inside a function only. -/
theorem inFunction {x : CompileM Unit} {T : Draft → List Piece → Draft → Prop}
    (h : Implements true x T) :
    Implements true
      (do if (← get).outer.isEmpty then CompileM.fail .returnOutsideFunction line
          x) fun d ps d' => d.env.nested ≠ [] ∧ T d ps d' := by
  have hiff : ∀ c : Compiler, c.Nested → (c.outer.isEmpty = false ↔ c.env.nested ≠ []) := by
    intro c hn
    rw [List.isEmpty_eq_false_iff, ← List.length_pos_iff, ← List.length_pos_iff, hn]
  have happly : ∀ c : Compiler, c.outer.isEmpty = false →
      (do if (← get).outer.isEmpty then CompileM.fail .returnOutsideFunction line
          x : CompileM Unit) c = x c := by
    intro c hc
    simp only [EStateM.bind_apply, EStateM.get_apply, hc, Bool.false_eq_true, if_false]
  constructor
  · intro c c' hn hx
    cases hc : c.outer.isEmpty with
    | true =>
      simp only [EStateM.bind_apply, EStateM.get_apply, hc, if_true] at hx
      cases hx
    | false =>
      rw [happly c hc] at hx
      obtain ⟨ps, d, ht, hw⟩ := h.sound hn hx
      exact ⟨ps, d, ⟨(hiff c hn).mp hc, ht⟩, hw⟩
  · rintro c ps d hn ⟨hne, ht⟩ hf
    rw [happly c ((hiff c hn).mpr hne)]
    exact h.complete hn ht hf

theorem returnNull : Implements true (compileStmt (.returnStmt line none))
    (Translates (.stmt (.returnStmt line none))) := by
  have hx : Implements true (CompileM.emit .pushNull >>= fun _ => CompileM.emit .returnValue) _ :=
    (@emit true .pushNull rfl []).seq (@emit true .returnValue rfl []) fun h => ⟨h, .inl h⟩
  refine hx.inFunction.congr fun d ps d' => ?_
  constructor
  · rintro ⟨hn, d₁, qs, rs, ⟨rfl, rfl⟩, ⟨rfl, rfl⟩, rfl⟩
    exact .returnNull hn
  · intro h
    cases h with
    | returnNull hn => exact ⟨hn, _, _, _, ⟨rfl, rfl⟩, ⟨rfl, rfl⟩, rfl⟩

theorem returnValue (h : Implements false (compileExpr node) (Translates (.expr node))) :
    Implements true (compileStmt (.returnStmt line (some node)))
      (Translates (.stmt (.returnStmt line (some node)))) := by
  have hx := h.seq (b := true) (@emit true .returnValue rfl []) fun _ => ⟨rfl, .inr (by
    rintro d d' ⟨h, -⟩
    cases h)⟩
  refine hx.inFunction.congr fun d ps d' => ?_
  constructor
  · rintro ⟨hn, d₁, qs, rs, h, ⟨rfl, rfl⟩, rfl⟩
    exact .returnValue hn h
  · intro h
    cases h with
    | returnValue hn h => exact ⟨hn, _, _, _, h, ⟨rfl, rfl⟩, rfl⟩

theorem intLit (n : Numeral) : Implements false (compileExpr (.intLit line n))
    (Translates (.expr (.intLit line n))) := by
  rw [compileExpr]
  cases n with
  | other text => exact fails (fun _ => ⟨_, _, rfl⟩) fun d ps d' h => by cases h
  | int n =>
    rw [compileLiteral]
    split
    · rename_i hn
      refine (constant (.int n)).congr fun d ps d' => ?_
      constructor
      · rintro ⟨rfl, rfl⟩
        exact .intLit hn
      · rintro ⟨⟩
        exact ⟨rfl, rfl⟩
    · rename_i hn
      refine fails (fun _ => ⟨_, _, rfl⟩) fun d ps d' h => ?_
      cases h with
      | intLit h => exact hn h

theorem strLit (s : String) : Implements false (compileExpr (.strLit line s))
    (Translates (.expr (.strLit line s))) := by
  rw [compileExpr]
  refine (constant (.str s)).congr fun d ps d' => ?_
  constructor
  · rintro ⟨rfl, rfl⟩
    exact .strLit
  · rintro ⟨⟩
    exact ⟨rfl, rfl⟩

theorem boolLit (b : Bool) : Implements false (compileExpr (.boolLit line b))
    (Translates (.expr (.boolLit line b))) := by
  rw [compileExpr]
  refine (@emit false (if b then .pushTrue else .pushFalse) (by cases b <;> rfl) []).congr
    fun d ps d' => ?_
  constructor
  · rintro ⟨rfl, rfl⟩
    exact .boolLit
  · rintro ⟨⟩
    exact ⟨rfl, rfl⟩

theorem ident (name : String) : Implements false (compileExpr (.ident line name))
    (Translates (.expr (.ident line name))) := by
  rw [compileExpr]
  have hacts : Acts (CompileM.resolve name line) fun d =>
      (d.env.resolve? name).map fun r => (r.1, { d with env := r.2 }) := by
    intro c
    dsimp only [Compiler.draft]
    cases hr : c.env.resolve? name with
    | none =>
      exact ⟨.error ⟨.undefinedVariable name, line⟩, c, CompileM.resolve_of_none hr line⟩
    | some r =>
      obtain ⟨⟨s, nested⟩, hin, rfl⟩ := Option.map_eq_some_iff.mp hr
      exact ⟨CompileM.resolve_of_some hr line, Environment.length_resolveIn hin⟩
  refine (bind hacts load).congr fun d ps d' => ?_
  constructor
  · rintro ⟨s, d₁, hs, hl, rfl, rfl⟩
    obtain ⟨⟨_, env⟩, hr, ⟨⟩⟩ := Option.map_eq_some_iff.mp hs
    exact .ident hr hl
  · intro h
    cases h with
    | ident hr hl => exact ⟨_, _, Option.map_eq_some_iff.mpr ⟨_, hr, rfl⟩, hl, rfl, rfl⟩

theorem unary {op : String} (h : Implements false (compileExpr right) (Translates (.expr right))) :
    Implements false (compileExpr (.unary line op right))
      (Translates (.expr (.unary line op right))) := by
  rw [compileExpr]
  cases hop : unaryOpcode? op with
  | none =>
    refine fails (bind_fails fun _ c => ⟨_, _, rfl⟩) fun d ps d' h => ?_
    cases h with
    | unary hop' _ => cases hop.symm.trans hop'
  | some code =>
    refine (h.seq (@emit false code (unaryOpcode?_plain hop) []) fun h => (by cases h)).congr
      fun d ps d' => ?_
    constructor
    · rintro ⟨d₁, qs, rs, h, ⟨rfl, rfl⟩, rfl⟩
      exact .unary hop h
    · intro h
      cases h with
      | unary hop' h =>
        cases hop.symm.trans hop'
        exact ⟨_, _, _, h, ⟨rfl, rfl⟩, rfl⟩

/-- Two phrases and an instruction behind them. -/
theorem seqEmit {x y : CompileM Unit} {T U : Draft → List Piece → Draft → Prop} {op : Opcode}
    (hp : op.isPlain) (operands : List Nat) (hx : Implements false x T) (hy : Implements false y U) :
    Implements false (x >>= fun _ => y >>= fun _ => CompileM.emit op (operands.map Nat.cast))
      fun d ps d' => ∃ d₁ qs rs, T d qs d₁ ∧ U d₁ rs d' ∧ ps = qs ++ rs ++ [.op op operands] := by
  refine (hx.seq (hy.seq (b := false) (@emit false op hp operands) fun h => (by cases h))
    fun h => (by cases h)).congr fun d ps d' => ?_
  constructor
  · rintro ⟨d₁, qs, _, ht, ⟨d₂, rs, _, hu, ⟨rfl, rfl⟩, rfl⟩, rfl⟩
    exact ⟨d₁, qs, rs, ht, hu, (List.append_assoc ..).symm⟩
  · rintro ⟨d₁, qs, rs, ht, hu, rfl⟩
    exact ⟨d₁, qs, _, ht, ⟨_, rs, _, hu, ⟨rfl, rfl⟩, rfl⟩, List.append_assoc ..⟩

theorem binary {op : String} (hl : Implements false (compileExpr left) (Translates (.expr left)))
    (hr : Implements false (compileExpr right) (Translates (.expr right))) :
    Implements false (compileExpr (.binary line left op right))
      (Translates (.expr (.binary line left op right))) := by
  rw [compileExpr]
  split
  · rename_i hop
    subst hop
    refine (@seqEmit _ _ _ _ .greaterThan rfl [] hr hl).congr fun d ps d' => ?_
    constructor
    · rintro ⟨d₁, qs, rs, h₁, h₂, rfl⟩
      exact .less h₁ h₂
    · intro h
      cases h with
      | less h₁ h₂ => exact ⟨_, _, _, h₁, h₂, rfl⟩
      | binary hne _ _ _ => exact absurd rfl hne
  · rename_i hne
    cases hop : binaryOpcode? op with
    | none =>
      refine fails (bind_fails fun _ => bind_fails fun _ c => ⟨_, _, rfl⟩) fun d ps d' h => ?_
      cases h with
      | less _ _ => exact hne rfl
      | binary _ hop' _ _ => cases hop.symm.trans hop'
    | some code =>
      refine (@seqEmit _ _ _ _ code (binaryOpcode?_plain hop) [] hl hr).congr fun d ps d' => ?_
      constructor
      · rintro ⟨d₁, qs, rs, h₁, h₂, rfl⟩
        exact .binary hne hop h₁ h₂
      · intro h
        cases h with
        | less _ _ => exact absurd rfl hne
        | binary _ hop' h₁ h₂ =>
          cases hop.symm.trans hop'
          exact ⟨_, _, _, h₁, h₂, rfl⟩

theorem index (hl : Implements false (compileExpr left) (Translates (.expr left)))
    (hr : Implements false (compileExpr right) (Translates (.expr right))) :
    Implements false (compileExpr (.index line left right))
      (Translates (.expr (.index line left right))) := by
  rw [compileExpr]
  refine (@seqEmit _ _ _ _ .index rfl [] hl hr).congr fun d ps d' => ?_
  constructor
  · rintro ⟨d₁, qs, rs, h₁, h₂, rfl⟩
    exact .index h₁ h₂
  · intro h
    cases h with
    | index h₁ h₂ => exact ⟨_, _, _, h₁, h₂, rfl⟩

theorem call {args : List Node}
    (hc : Implements false (compileExpr node) (Translates (.expr node)))
    (ha : Implements false (compileExprs args) (Translates (.exprs args))) :
    Implements false (compileExpr (.call line node args))
      (Translates (.expr (.call line node args))) := by
  rw [compileExpr]
  refine (@seqEmit _ _ _ _ .call rfl [args.length] hc ha).congr fun d ps d' => ?_
  constructor
  · rintro ⟨d₁, qs, rs, h₁, h₂, rfl⟩
    exact .call h₁ h₂
  · intro h
    cases h with
    | call h₁ h₂ => exact ⟨_, _, _, h₁, h₂, rfl⟩

theorem arrayLit {elements : List Node}
    (h : Implements false (compileExprs elements) (Translates (.exprs elements))) :
    Implements false (compileExpr (.arrayLit line elements))
      (Translates (.expr (.arrayLit line elements))) := by
  rw [compileExpr]
  refine (h.seq (@emit false .array rfl [elements.length]) fun h => (by cases h)).congr
    fun d ps d' => ?_
  constructor
  · rintro ⟨d₁, qs, rs, h, ⟨rfl, rfl⟩, rfl⟩
    exact .arrayLit h
  · intro h
    cases h with
    | arrayLit h => exact ⟨_, _, _, h, ⟨rfl, rfl⟩, rfl⟩

theorem hashLit {pairs : List (Node × Node)}
    (h : Implements false (compilePairs pairs) (Translates (.pairs pairs))) :
    Implements false (compileExpr (.hashLit line pairs))
      (Translates (.expr (.hashLit line pairs))) := by
  rw [compileExpr]
  have he := @emit false .hash rfl [pairs.length * 2]
  simp only [List.map_cons, List.map_nil, Int.natCast_mul] at he
  refine (h.seq he fun h => (by cases h)).congr fun d ps d' => ?_
  constructor
  · rintro ⟨d₁, qs, rs, h, ⟨rfl, rfl⟩, rfl⟩
    exact .hashLit h
  · intro h
    cases h with
    | hashLit h => exact ⟨_, _, _, h, ⟨rfl, rfl⟩, rfl⟩

/-- The statements of a block. -/
abbrev BlockTranslates (node : Node) (d : Draft) (ps : List Piece) (d' : Draft) : Prop :=
  ∃ statements, node.statements? = some statements ∧ Translates (.stmts statements) d ps d'

/-- The statements of a branch. -/
abbrev BranchTranslates (branch : Option Node) (d : Draft) (ps : List Piece) (d' : Draft) : Prop :=
  ∃ statements, Node.branchStatements? branch = some statements ∧
    Translates (.stmts statements) d ps d'

theorem ifExpr {first second : Option Node}
    (hc : Implements false (compileExpr node) (Translates (.expr node)))
    (h₁ : Implements true (compileOptional first) (BranchTranslates first))
    (h₂ : Implements true (compileOptional second) (BranchTranslates second)) :
    Implements false (compileExpr (.ifExpr line node first second))
      (Translates (.expr (.ifExpr line node first second))) := by
  rw [compileExpr, compileIf_eq]
  refine (hc.seq (h₁.choice h₂) fun h => (by cases h)).congr fun d ps d' => ?_
  constructor
  · rintro ⟨d₁, qs, rs, h, ⟨d₂, ts, es, ⟨ns, hns, ht⟩, ⟨ms, hms, he⟩, rfl⟩, rfl⟩
    exact .ifExpr hns hms h ht he
  · intro h
    cases h with
    | ifExpr hns hms h ht he =>
      exact ⟨_, _, _, h, ⟨_, _, _, ⟨_, hns, ht⟩, ⟨_, hms, he⟩, rfl⟩, rfl⟩

theorem fnLit {params : List Node} {name : Option String}
    (h : Implements true (compileBlock node) (BlockTranslates node)) :
    Implements false (compileExpr (.fnLit line params node name))
      (Translates (.expr (.fnLit line params node name))) := by
  rw [compileExpr]
  refine (function name params h).congr fun d ps d' => ?_
  constructor
  · rintro ⟨names, qs, d₁, hnames, ⟨ns, hns, ht⟩, hf, hl, rfl, rfl⟩
    exact .fnLit hnames hns ht hf hl
  · intro h
    cases h with
    | fnLit hnames hns ht hf hl => exact ⟨_, _, _, hnames, ⟨_, hns, ht⟩, hf, hl, rfl, rfl⟩

theorem noExprs : Implements false (compileExprs []) (Translates (.exprs [])) := by
  rw [compileExprs]
  refine nil.congr fun d ps d' => ?_
  constructor
  · rintro ⟨rfl, rfl⟩
    exact .noExprs
  · rintro ⟨⟩
    exact ⟨rfl, rfl⟩

theorem exprs {rest : List Node}
    (h₁ : Implements false (compileExpr node) (Translates (.expr node)))
    (h₂ : Implements false (compileExprs rest) (Translates (.exprs rest))) :
    Implements false (compileExprs (node :: rest)) (Translates (.exprs (node :: rest))) := by
  rw [compileExprs]
  refine (h₁.seq h₂ fun h => (by cases h)).congr fun d ps d' => ?_
  constructor
  · rintro ⟨d₁, qs, rs, h₁, h₂, rfl⟩
    exact .exprs h₁ h₂
  · intro h
    cases h with
    | exprs h₁ h₂ => exact ⟨_, _, _, h₁, h₂, rfl⟩

theorem noPairs : Implements false (compilePairs []) (Translates (.pairs [])) := by
  rw [compilePairs]
  refine nil.congr fun d ps d' => ?_
  constructor
  · rintro ⟨rfl, rfl⟩
    exact .noPairs
  · rintro ⟨⟩
    exact ⟨rfl, rfl⟩

theorem pairs {rest : List (Node × Node)}
    (h₁ : Implements false (compileExpr left) (Translates (.expr left)))
    (h₂ : Implements false (compileExpr right) (Translates (.expr right)))
    (h₃ : Implements false (compilePairs rest) (Translates (.pairs rest))) :
    Implements false (compilePairs ((left, right) :: rest))
      (Translates (.pairs ((left, right) :: rest))) := by
  rw [compilePairs]
  refine (h₁.seq (h₂.seq (b := false) h₃ fun h => (by cases h)) fun h => (by cases h)).congr
    fun d ps d' => ?_
  constructor
  · rintro ⟨d₁, qs, _, h₁, ⟨d₂, rs, ts, h₂, h₃, rfl⟩, rfl⟩
    rw [← List.append_assoc]
    exact .pairs h₁ h₂ h₃
  · intro h
    cases h with
    | pairs h₁ h₂ h₃ => exact ⟨_, _, _, h₁, ⟨_, _, _, h₂, h₃, rfl⟩, List.append_assoc ..⟩

theorem noStmts : Implements true (compileStmts []) (Translates (.stmts [])) := by
  rw [compileStmts]
  refine nil.congr fun d ps d' => ?_
  constructor
  · rintro ⟨rfl, rfl⟩
    exact .noStmts
  · rintro ⟨⟩
    exact ⟨rfl, rfl⟩

theorem stmts {rest : List Node}
    (h₁ : Implements true (compileStmt node) (Translates (.stmt node)))
    (h₂ : Implements true (compileStmts rest) (Translates (.stmts rest))) :
    Implements true (compileStmts (node :: rest)) (Translates (.stmts (node :: rest))) := by
  rw [compileStmts]
  refine (h₁.seq h₂ fun h => ⟨h, .inl h⟩).congr fun d ps d' => ?_
  constructor
  · rintro ⟨d₁, qs, rs, h₁, h₂, rfl⟩
    exact .stmts h₁ h₂
  · intro h
    cases h with
    | stmts h₁ h₂ => exact ⟨_, _, _, h₁, h₂, rfl⟩

theorem block {statements : List Node}
    (h : Implements true (compileStmts statements) (Translates (.stmts statements))) :
    Implements true (compileStmt (.block line statements))
      (Translates (.stmt (.block line statements))) := by
  rw [compileStmt]
  refine h.congr fun d ps d' => ⟨.block, fun h => ?_⟩
  cases h with
  | block h => exact h

theorem ofStatements {statements : List Node} (hs : node.statements? = some statements)
    (h : Implements true (compileStmts statements) (Translates (.stmts statements))) :
    Implements true (compileStmts statements) (BlockTranslates node) := by
  refine h.congr fun d ps d' => ⟨fun h => ⟨statements, hs, h⟩, ?_⟩
  rintro ⟨_, hs', h⟩
  cases hs.symm.trans hs'
  exact h

private theorem noBranch : Implements true (compileOptional none) (BranchTranslates none) := by
  refine noStmts.congr fun d ps d' => ⟨fun h => ⟨[], rfl, h⟩, ?_⟩
  rintro ⟨_, ⟨⟩, h⟩
  exact h

theorem unbound
    (h : Implements false (compileExpr (node.boundTo "")) (Translates (.expr (node.boundTo "")))) :
    Implements false (compileExpr node) (Translates (.expr node)) := by
  rwa [node.boundTo_empty] at h

end Implements

mutual

theorem compileStmt_implements : (node : Node) →
    Implements true (compileStmt node) (Translates (.stmt node))
  | .exprStmt _ expr => .exprStmt (.unbound (compileExpr_implements expr ""))
  | .letStmt _ _ value => .letStmt (compileExpr_implements value)
  | .returnStmt _ none => .returnNull
  | .returnStmt _ (some value) => .returnValue (.unbound (compileExpr_implements value ""))
  | .block _ statements => .block (compileStmts_implements statements)
  | .foreign .. | .program .. | .ident .. | .intLit .. | .strLit .. | .boolLit .. | .unary ..
  | .binary .. | .ifExpr .. | .fnLit .. | .call .. | .arrayLit .. | .hashLit .. | .index .. =>
    .fails (fun _ => ⟨_, _, rfl⟩) fun _ _ _ h => nomatch h

theorem compileStmts_implements : (nodes : List Node) →
    Implements true (compileStmts nodes) (Translates (.stmts nodes))
  | [] => .noStmts
  | node :: rest => .stmts (compileStmt_implements node) (compileStmts_implements rest)

theorem compileBlock_implements : (node : Node) →
    Implements true (compileBlock node) (Implements.BlockTranslates node)
  | .block _ statements => .ofStatements rfl (compileStmts_implements statements)
  | .program _ statements => .ofStatements rfl (compileStmts_implements statements)
  | .foreign .. | .letStmt .. | .returnStmt .. | .exprStmt .. | .ident .. | .intLit ..
  | .strLit .. | .boolLit .. | .unary .. | .binary .. | .ifExpr .. | .fnLit .. | .call ..
  | .arrayLit .. | .hashLit .. | .index .. =>
    .fails (fun _ => ⟨_, _, rfl⟩) fun _ _ _ ⟨_, h, _⟩ => nomatch h

theorem compileOptional_implements : (node : Option Node) →
    Implements true (compileOptional node) (Implements.BranchTranslates node)
  | none => .noBranch
  | some node => compileBlock_implements node

/-- The name of the variable to which an expression is bound matters for function literals
only. -/
theorem compileExpr_implements : (node : Node) → (target : String) →
    Implements false (compileExpr (node.boundTo target))
      (Translates (.expr (node.boundTo target)))
  | .intLit _ n, _ => .intLit n
  | .strLit _ s, _ => .strLit s
  | .boolLit _ b, _ => .boolLit b
  | .ident _ name, _ => .ident name
  | .unary _ _ right, _ => .unary (.unbound (compileExpr_implements right ""))
  | .binary _ left _ right, _ =>
    .binary (.unbound (compileExpr_implements left ""))
      (.unbound (compileExpr_implements right ""))
  | .ifExpr _ condition first second, _ =>
    .ifExpr (.unbound (compileExpr_implements condition "")) (compileOptional_implements first)
      (compileOptional_implements second)
  | .fnLit _ _ body _, _ => .fnLit (compileBlock_implements body)
  | .call _ callee args, _ =>
    .call (.unbound (compileExpr_implements callee "")) (compileExprs_implements args)
  | .arrayLit _ elements, _ => .arrayLit (compileExprs_implements elements)
  | .hashLit _ pairs, _ => .hashLit (compilePairs_implements pairs)
  | .index _ left sub, _ =>
    .index (.unbound (compileExpr_implements left "")) (.unbound (compileExpr_implements sub ""))
  | .foreign .., _ | .program .., _ | .letStmt .., _ | .returnStmt .., _ | .exprStmt .., _
  | .block .., _ => .fails (fun _ => ⟨_, _, rfl⟩) fun _ _ _ h => nomatch h

theorem compileExprs_implements : (nodes : List Node) →
    Implements false (compileExprs nodes) (Translates (.exprs nodes))
  | [] => .noExprs
  | node :: rest =>
    .exprs (.unbound (compileExpr_implements node "")) (compileExprs_implements rest)

theorem compilePairs_implements : (pairs : List (Node × Node)) →
    Implements false (compilePairs pairs) (Translates (.pairs pairs))
  | [] => .noPairs
  | (key, value) :: rest =>
    .pairs (.unbound (compileExpr_implements key ""))
      (.unbound (compileExpr_implements value "")) (compilePairs_implements rest)

end

/-- The draft on which a session compiles its next program. -/
def Session.draft (s : Session) : Draft := ⟨s.constants, { global := s.names }⟩

/-- Where a session starts to compile. -/
def Session.compiler (s : Session) : Compiler :=
  { constants := s.constants, env := { global := s.names } }

theorem Session.compile_program (s : Session) (line : Line) (statements : List Node) :
    s.compile (.program line statements) =
      match compileStmts statements s.compiler with
      | .ok _ c => (.ok c.emission.code, { s with
          constants := c.constants, names := c.env.global, last := some c.emission.code })
      | .error (.error e) c =>
        (.error (.error e), { s with constants := c.constants.take s.constants.size })
      | .error stop c => (.error stop, { s with constants := c.constants, names := c.env.global }) := by
  have hr : Compiler.restart { constants := s.constants, env := { global := s.names } } =
    s.compiler := rfl
  simp only [Session.compile, compileProgram, hr]
  cases compileStmts statements s.compiler with
  | ok _ c => rfl
  | error stop c => cases stop <;> rfl

/-- A session compiles a program iff its translation can be written. -/
theorem Session.compile_eq_ok {s s' : Session} {program : Node} {code : Code} :
    s.compile program = (.ok code, s') ↔
      ∃ line statements ps d, program = .program line statements ∧
        Translates (.stmts statements) s.draft ps d ∧ Piece.Fits 0 ps ∧
        code = (Piece.layout 0 ps).toArray ∧
        s' = { s with constants := d.constants, names := d.env.global, last := some code } := by
  have hn : s.compiler.Nested := rfl
  have hok : ∀ {statements ps d c}, s.compiler.Writes true ps d c →
      compileStmts statements s.compiler = .ok () c → ∀ line,
      s.compile (.program line statements) = (.ok (Piece.layout 0 ps).toArray, { s with
        constants := d.constants, names := d.env.global
        last := some (Piece.layout 0 ps).toArray }) := by
    intro statements ps d c hw hc line
    have hcode : c.emission.code = (Piece.layout 0 ps).toArray := by
      have := congrArg List.toArray hw.code
      rwa [Array.toArray_toList] at this
    rw [compile_program, hc, ← hw.draft, ← hcode]
    rfl
  constructor
  · intro h
    cases program with
    | program line statements =>
      cases hc : compileStmts statements s.compiler with
      | ok u c' =>
        obtain ⟨ps, d, ht, hw⟩ := (compileStmts_implements statements).sound hn hc
        rw [hok hw hc] at h
        cases h
        exact ⟨line, statements, ps, d, rfl, ht, hw.fits, rfl, rfl⟩
      | error e c' =>
        rw [compile_program, hc] at h
        cases e <;> simp at h
    | _ => simp [Session.compile, compileProgram] at h
  · rintro ⟨line, statements, ps, d, rfl, ht, hf, rfl, rfl⟩
    obtain ⟨c', hc, hw⟩ := (compileStmts_implements statements).complete hn ht hf
    exact hok hw hc line

theorem Session.compile_of_toOption {s : Session} {program : Node} {code : Code}
    (h : (s.compile program).1.toOption = some code) :
    s.compile program = (.ok code, (s.compile program).2) := by
  generalize s.compile program = result at h
  obtain ⟨r, s₁⟩ := result
  cases r with
  | error e => cases h
  | ok code' =>
    cases h
    rfl

/-- What a compiler that accepts a program has written. -/
theorem Compiler.compileProgram_ok {c c' : Compiler} {program : Node} {code : Code}
    (h : compileProgram program c = .ok code c') :
    ∃ line statements ps, program = .program line statements ∧
      compileStmts statements c.restart = .ok () c' ∧
      Translates (.stmts statements) c.restart.draft ps c'.draft ∧ Piece.Fits 0 ps ∧
      code = (Piece.layout 0 ps).toArray := by
  cases program with
  | program line statements =>
    simp only [compileProgram] at h
    cases hc : compileStmts statements c.restart with
    | ok u c'' =>
      rw [hc] at h
      cases h
      have hn : c.restart.Nested := rfl
      obtain ⟨ps, d, ht, hw⟩ := (compileStmts_implements statements).sound hn hc
      refine ⟨line, statements, ps, rfl, hc, hw.draft ▸ ht, hw.fits, ?_⟩
      exact (Array.toArray_toList ..).symm.trans (congrArg List.toArray hw.code)
    | error stop c'' =>
      rw [hc] at h
      cases stop <;> cases h
  | _ => cases h

end ClosureVM
