import ClosureVM.Proofs.Evaluation.Coincidence
import ClosureVM.Proofs.Evaluation.Correctness

/-! Statements that are never run leave no trace but the names they bind: a program does the same
with them and without them, unless a later statement reads such a name. -/
namespace ClosureVM

/-- An `if` whose branch is never taken. -/
inductive Node.Skips (body : List Node) : Node → Prop
  | mk (l₁ l₂ l₃ l₄ : Line) :
      Node.Skips body (.exprStmt l₁ (.ifExpr l₂ (.boolLit l₃ false) (some (.block l₄ body)) none))

/-! ### Evaluation -/

/-- Bindings that were passed over. -/
def Bindings.nulls (names : List String) : Bindings := (names.map (·, Datum.null)).reverse

private theorem EvalM.skip_apply (names : List String) (p : Progress) :
    EvalM.skip names p = .ok ⟨⟩ { p with scope := Bindings.nulls names ++ p.scope } := by
  induction names generalizing p with
  | nil => rfl
  | cons name names ih =>
    have hcons : EvalM.skip (name :: names) =
        (EvalM.bindName name .null >>= fun _ => EvalM.skip names) := rfl
    have hbind : EvalM.bindName name .null p =
        .ok ⟨⟩ { p with scope := (name, .null) :: p.scope } := rfl
    rw [hcons, EStateM.bind_ok hbind, ih]
    simp [Bindings.nulls]

private theorem Bindings.lookup_nulls {names : List String} {x : String} (hx : x ∉ names)
    (scope : Bindings) : (nulls names ++ scope).lookup x = scope.lookup x := by
  have hnone : (nulls names).lookup x = none := by
    rw [List.lookup_eq_none_iff]
    intro e he
    obtain ⟨y, hy, rfl⟩ := List.mem_map.mp (List.mem_reverse.mp he)
    simpa using fun hxy : x = y => hx (hxy ▸ hy)
  rw [List.lookup_append, hnone, Option.none_or]

section Evaluation

variable {call : Datum → List Datum → EvalM Datum} {node node' : Node} {body : List Node}

theorem evalStmt_skips (h : node.Skips body) (p : Progress) :
    evalStmt call false node p = .ok .null
      { p with scope := Bindings.nulls (letsOfAll body) ++ p.scope, result := .null } := by
  cases h with
  | mk l₁ l₂ l₃ l₄ =>
    have hskip := EvalM.skip_apply (letsOfAll body) p
    have heval : evalStmt call false
        (.exprStmt l₁ (.ifExpr l₂ (.boolLit l₃ false) (some (.block l₄ body)) none)) =
        (EvalM.skip (letsOfAll body) >>= fun _ => EvalM.drop .null) := by
      have hfalse : (Datum.bool false).truthy = false := rfl
      simp only [evalStmt, evalExpr, evalBranch, letsOfOption, Node.lets, pure_bind, hfalse,
        Bool.false_eq_true, if_false, bind_assoc]
    rw [heval, EStateM.bind_ok hskip]
    rfl

theorem allIdle_of_skips (h : node.Skips body) (before after : List Node) :
    allIdle (before ++ node :: after) = false := by
  induction before with
  | nil =>
    cases h
    rfl
  | cons first before ih => rw [List.cons_append, allIdle, ih, Bool.and_false]

/-- A name that is passed over is no longer known. -/
theorem evalStmt_skips_alike {p p' : Progress} {known : String → Prop} (h : node.Skips body)
    (h' : node'.Skips []) (hp : p.Alike known p') :
    SameEnding Datum.trim (fun z => known z ∧ z ∉ letsOfAll body) (evalStmt call false node p)
      (evalStmt call false node' p') := by
  rw [evalStmt_skips h, evalStmt_skips h']
  refine .ok rfl ⟨fun z hz => ?_, rfl, hp.written, hp.fresh⟩
  rw [Bindings.lookup_nulls hz.2]
  exact hp.scope z hz.1

/-- Statements before and after ones that are never run. -/
theorem evalStmts_skips_alike (hcall : CallsCoincide call) (h : node.Skips body)
    (h' : node'.Skips []) {after : List Node}
    (hreads : ∀ x ∈ letsOfAll body, x ∉ readsOfAll after) (before : List Node) {p p' : Progress}
    (hp : p.Alike (fun _ => True) p') :
    SameEnding Datum.trim (fun _ => False) (evalStmts call false (before ++ node :: after) p)
      (evalStmts call false (before ++ node' :: after) p') := by
  induction before generalizing p p' with
  | nil =>
    have hskip := @evalStmt_skips_alike call _ _ _ _ _ _ h h' hp
    rw [List.nil_append, List.nil_append, evalStmts, evalStmts]
    split
    · exact hskip.mono fun _ => False.elim
    · refine hskip.discard.bind fun _ hq => ?_
      exact ((evalStmts_steady hcall false after).ends
        (fun x hx => ⟨trivial, fun hl => hreads x hl hx⟩) hq).mono fun _ => False.elim
  | cons first before ih =>
    have hfirst := (evalStmt_steady hcall false first).discard.ends (fun _ _ => trivial) hp
    rw [List.cons_append, List.cons_append, evalStmts, evalStmts, allIdle_of_skips h,
      allIdle_of_skips h']
    exact hfirst.bind fun _ hq => ih (hq.mono fun _ _ => .inl trivial)

end Evaluation

/-! ### Runs -/

mutual

/-- A value without the code inside its closures. -/
def Value.outline : Value → Value
  | .null => .null
  | .bool b => .bool b
  | .int n => .int n
  | .str s => .str s
  | .array id elements => .array id (outlineElements elements)
  | .hash id entries => .hash id (outlineEntries entries)
  | .function _ => .function default
  | .closure id .. => .closure id default []
  | .builtin b => .builtin b

def outlineElements : List Value → List Value
  | [] => []
  | v :: rest => v.outline :: outlineElements rest

def outlineEntries : List (Key × Value) → List (Key × Value)
  | [] => []
  | (k, v) :: rest => (k, v.outline) :: outlineEntries rest

end

theorem outlineElements_eq (vs : List Value) : outlineElements vs = vs.map Value.outline := by
  induction vs with
  | nil => rfl
  | cons v vs ih => rw [outlineElements, ih, List.map_cons]

theorem outlineEntries_eq (vs : Entries) :
    outlineEntries vs = vs.map fun e => (e.1, e.2.outline) := by
  induction vs with
  | nil => rfl
  | cons v vs ih => rw [outlineEntries, ih, List.map_cons]

namespace Datum

mutual

/-- The outline of the values that a datum stands for. -/
def outline : Datum → Value
  | null => .null
  | bool b => .bool b
  | int n => .int n
  | str s => .str s
  | array id elements => .array id (outlineElements elements)
  | hash id entries => .hash id (outlineEntries entries)
  | closure id .. => .closure id default []
  | builtin b => .builtin b

def outlineElements : List Datum → List Value
  | [] => []
  | d :: rest => d.outline :: outlineElements rest

def outlineEntries : List (Key × Datum) → List (Key × Value)
  | [] => []
  | (k, d) :: rest => (k, d.outline) :: outlineEntries rest

end

theorem outlineElements_eq (ds : List Datum) : outlineElements ds = ds.map outline := by
  induction ds with
  | nil => rfl
  | cons d ds ih => rw [outlineElements, ih, List.map_cons]

theorem outlineEntries_eq (ds : List (Key × Datum)) :
    outlineEntries ds = ds.map fun e => (e.1, e.2.outline) := by
  induction ds with
  | nil => rfl
  | cons d ds ih => rw [outlineEntries, ih, List.map_cons]

mutual

theorem outline_trim : (d : Datum) → d.trim.outline = d.outline
  | .null | .bool _ | .int _ | .str _ | .builtin _ | .closure .. => rfl
  | .array id ds => congrArg (Value.array id) (outlineElements_trim ds)
  | .hash id entries => congrArg (Value.hash id) (outlineEntries_trim entries)

theorem outlineElements_trim : (ds : List Datum) →
    outlineElements (trimElements ds) = outlineElements ds
  | [] => rfl
  | d :: ds => congrArg₂ List.cons (outline_trim d) (outlineElements_trim ds)

theorem outlineEntries_trim : (entries : List (Key × Datum)) →
    outlineEntries (trimEntries entries) = outlineEntries entries
  | [] => rfl
  | (k, d) :: entries =>
    congrArg₂ List.cons (congrArg (Prod.mk k) (outline_trim d)) (outlineEntries_trim entries)

end

end Datum

theorem Denotes.outline_eq {pool : Array Value} {globals : List Value} {d : Datum} {v : Value}
    (h : Denotes pool globals d v) : d.outline = v.outline := by
  induction h with
  | array hl _ ih =>
    rw [Datum.outline, Value.outline, Datum.outlineElements_eq, outlineElements_eq]
    exact congrArg _ (map_eq_map_of_getElem? hl ih)
  | @hash _ ds vs hk _ ih =>
    have hl : ds.length = vs.length := by simpa using congrArg List.length hk
    rw [Datum.outline, Value.outline, Datum.outlineEntries_eq, outlineEntries_eq]
    refine congrArg _ (map_eq_map_of_getElem? hl fun i a b ha hb => ?_)
    have hkey : a.1 = b.1 := by
      have := congrArg (·[i]?) hk
      simpa [ha, hb] using this
    rw [hkey, ih i a b ha hb]
  | _ => rfl

/-- Values that two programs end with are the same but for the code inside closures, and closures
are made by the same functions, for which the names they read stand for the same. -/
structure SameValue (c c' : Compiler) (v v' : Value) : Prop where
  outline : v.outline = v'.outline
  data : ∃ globals globals' d d', Denotes c.constants globals d v ∧
    Denotes c'.constants globals' d' v' ∧ d.trim = d'.trim

/-- Two runs end with the same value or the same error, and have written the same. -/
inductive SameRun (c c' : Compiler) :
    Except Failure Value → Machine → Except Failure Value → Machine → Prop
  | value {v v' : Value} {m m' : Machine} : SameValue c c' v v' →
      m.output.toList.filterMap Output.puts? = m'.output.toList.filterMap Output.puts? →
      SameRun c c' (.ok v) m (.ok v') m'
  | failure {s : Stop} {m m' : Machine} :
      m.output.toList.filterMap Output.puts? = m'.output.toList.filterMap Output.puts? →
      SameRun c c' (.error (m.failure s)) m (.error (m'.failure s)) m'

private theorem SameEnding.sameRun {known : String → Prop} {c c' : Compiler}
    {r r' : Except Failure Value}
    {m m' : Machine} {e e' : EStateM.Result Interrupt Progress Datum}
    (h : SameEnding Datum.trim known e e') (hr : SameOutcome c r m e)
    (hr' : SameOutcome c' r' m' e') : SameRun c c' r m r' m' := by
  cases h with
  | ok _ hp =>
    cases hr with
    | value globals hs hv _ =>
      cases hr' with
      | value globals' hs' hv' _ =>
        refine .value ⟨?_, globals, globals', _, _, hv, hv', hp.result⟩
          (hs.output.trans (hp.written.trans hs'.output.symm))
        rw [← hv.outline_eq, ← hv'.outline_eq, ← Datum.outline_trim, hp.result, Datum.outline_trim]
  | error ht hp =>
    cases hr with
    | failure globals hs =>
      cases hr' with
      | failure globals' hs' =>
        cases ht
        exact .failure (hs.output.trans (hp.written.trans hs'.output.symm))

/-- Statements that are never run have no effect, if no name that they bind is read afterwards
before it is bound anew: within any limits, runs with them and without them that do not exhaust
their resources end with the same value or the same error, and have written the same. -/
theorem skipped_code_inert {before body after : List Node} {node node' : Node}
    (hnode : node.Skips body) (hnode' : node'.Skips [])
    (hreads : ∀ x ∈ letsOfAll body, x ∉ readsOfAll after) {line line' : Line}
    {code code' : Code} {c c' : Compiler}
    (hc : compileProgram (.program line (before ++ node :: after)) {} = .ok code c)
    (hc' : compileProgram (.program line' (before ++ node' :: after)) {} = .ok code' c')
    (limits limits' : Limits) (tracing tracing' : Bool) (fresh : Nat) {fuel fuel' : Nat}
    {r r' : Except Failure Value} {m m' : Machine}
    (hr : (Machine.new code c.constants { size := numGlobals } limits tracing fresh).run? fuel =
      some (r, m))
    (hr' : (Machine.new code' c'.constants { size := numGlobals } limits' tracing' fresh).run?
      fuel' = some (r', m'))
    (hres : ¬ Exhausted r) (hres' : ¬ Exhausted r') : SameRun c c' r m r' m' := by
  -- deep enough for both runs
  let depth := limits.maxFrames.toNat + limits'.maxFrames.toNat
  have hd : limits.maxFrames ≤ depth + 1 := by omega
  have hd' : limits'.maxFrames ≤ depth + 1 := by omega
  obtain ⟨_, _, _, _, hs, hnil, hn, hclosed, hglobal, hm⟩ :=
    compileProgram_simulates hc tracing fresh hd
  obtain ⟨_, _, _, _, hs', hnil', hn', hclosed', hglobal', hm'⟩ :=
    compileProgram_simulates hc' tracing' fresh hd'
  have hsame := evalStmts_skips_alike (Datum.call_coincides depth) hnode hnode' hreads before
    (.refl _ { scope := .builtins, fresh })
  exact hsame.sameRun (hs.sameOutcome hnil hn hclosed hglobal hm hr hres)
    (hs'.sameOutcome hnil' hn' hclosed' hglobal' hm' hr' hres')

/-- The names of two bindings that are passed over come back as a parameter and in a new binding. -/
theorem skipped_code_inert_rebound :
    ∃ before body after node node' code code' c c' m m', Node.Skips body node ∧
      Node.Skips [] node' ∧ letsOfAll body = ["y", "f"] ∧ readsOfAll after = ["z"] ∧
      compileProgram (.program none (before ++ node :: after)) {} = .ok code c ∧
      compileProgram (.program none (before ++ node' :: after)) {} = .ok code' c' ∧
      SameRun c c' (.ok (.int 7)) m (.ok (.int 7)) m' := by
  let before : List Node := [
    .letStmt none (.ident none "y") (.intLit none (.int 1)),
    .letStmt none (.ident none "z") (.intLit none (.int 5))]
  let body : List Node := [
    .letStmt none (.ident none "y") (.intLit none (.int 2)),
    .letStmt none (.ident none "f") (.ident none "y")]
  let after : List Node := [
    .letStmt none (.ident none "f") (.fnLit none [.ident none "y"] (.block none [
      .exprStmt none (.binary none (.ident none "y") "+" (.ident none "z"))]) none),
    .exprStmt none (.call none (.ident none "f") [.intLit none (.int 2)])]
  let skip (body : List Node) : Node :=
    .exprStmt none (.ifExpr none (.boolLit none false) (some (.block none body)) none)
  have hends : Node.endsIn (.program none (before ++ skip body :: after)) 40 7 = true := by
    decide +kernel
  have hends' : Node.endsIn (.program none (before ++ skip [] :: after)) 40 7 = true := by
    decide +kernel
  obtain ⟨code, c, m, hc, hr⟩ := Node.endsIn_eq_true hends
  obtain ⟨code', c', m', hc', hr'⟩ := Node.endsIn_eq_true hends'
  have hres : ¬ Exhausted (.ok (.int 7)) := by
    rintro ⟨f, ip, calls, ⟨⟩, -⟩
  have hreads : ∀ x ∈ letsOfAll body, x ∉ readsOfAll after := by decide
  exact ⟨before, body, after, skip body, skip [], code, code', c, c', m, m', .mk .., .mk ..,
    by decide, by decide, hc, hc', skipped_code_inert (.mk ..) (.mk ..) hreads hc hc' {} {} false
      false 1 hr hr' hres hres⟩

/-- A name that is read afterwards: the binding that was passed over hides the one before. -/
theorem skipped_let_hides_binding :
    ∃ before body after node node' code code' c c' m m', Node.Skips body node ∧
      Node.Skips [] node' ∧
      compileProgram (.program none (before ++ node :: after)) {} = .ok code c ∧
      compileProgram (.program none (before ++ node' :: after)) {} = .ok code' c' ∧
      (Machine.new code c.constants { size := numGlobals } {} false 1).run? 40 =
        some (.ok (.int 2), m) ∧
      (Machine.new code' c'.constants { size := numGlobals } {} false 1).run? 40 =
        some (.ok (.int 1), m') := by
  let one : Node := .intLit none (.int 1)
  let two : Node := .intLit none (.int 2)
  let before : List Node := [.letStmt none (.ident none "x") one]
  let body : List Node := [.letStmt none (.ident none "x") two]
  let after : List Node := [.exprStmt none (.ifExpr none (.ident none "x")
    (some (.block none [.exprStmt none one])) (some (.block none [.exprStmt none two])))]
  let skip (body : List Node) : Node :=
    .exprStmt none (.ifExpr none (.boolLit none false) (some (.block none body)) none)
  have hends : Node.endsIn (.program none (before ++ skip body :: after)) 40 2 = true := by
    decide +kernel
  have hends' : Node.endsIn (.program none (before ++ skip [] :: after)) 40 1 = true := by
    decide +kernel
  obtain ⟨code, c, m, hc, hr⟩ := Node.endsIn_eq_true hends
  obtain ⟨code', c', m', hc', hr'⟩ := Node.endsIn_eq_true hends'
  exact ⟨before, body, after, skip body, skip [], code, code', c, c', m, m', .mk .., .mk ..,
    hc, hc', hr, hr'⟩

end ClosureVM
