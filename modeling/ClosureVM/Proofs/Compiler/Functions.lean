import ClosureVM.Proofs.Compiler.Choices

/-! What is written for functions, whose code is complete before the enclosing code goes on. -/
namespace ClosureVM

namespace Piece

/-- Statements end in a return statement. -/
def EndsInReturn (ps : List Piece) : Prop := ∃ qs, ps = qs ++ [.op .returnValue]

theorem asBody_concat_pop (qs : List Piece) :
    asBody (qs ++ [.op .pop]) = qs ++ [.op .returnValue] := by
  simp [asBody]

theorem asBody_concat_returnValue (qs : List Piece) :
    asBody (qs ++ [.op .returnValue]) = qs ++ [.op .returnValue] := by
  simp [asBody]

theorem asBody_of_not_ends {ps : List Piece} (hp : ¬ EndsInPop ps) (hr : ¬ EndsInReturn ps) :
    asBody ps = ps ++ [.op .returnNull] := by
  unfold asBody
  split
  · rename_i hl
    obtain ⟨qs, rfl⟩ := List.getLast?_eq_some_iff.mp hl
    exact absurd ⟨qs, rfl⟩ hp
  · rename_i hl
    obtain ⟨qs, rfl⟩ := List.getLast?_eq_some_iff.mp hl
    exact absurd ⟨qs, rfl⟩ hr
  · rfl

/-- What a last `pop` or return does not change, a body and its statements share. -/
theorem asBody_iff {T : List Piece → Prop} (hpop : ∀ qs, T (qs ++ [.op .pop]) ↔ T qs)
    (hvalue : ∀ qs, T (qs ++ [.op .returnValue]) ↔ T qs)
    (hnull : ∀ qs, T (qs ++ [.op .returnNull]) ↔ T qs) (ps : List Piece) :
    T (asBody ps) ↔ T ps := by
  by_cases hp : EndsInPop ps
  · obtain ⟨qs, rfl⟩ := hp
    rw [asBody_concat_pop, hpop, hvalue]
  · by_cases hr : EndsInReturn ps
    · obtain ⟨qs, rfl⟩ := hr
      rw [asBody_concat_returnValue]
    · rw [asBody_of_not_ends hp hr, hnull]

theorem fits_asBody {position : Nat} {ps : List Piece} :
    Fits position (asBody ps) ↔ Fits position ps :=
  asBody_iff (fun _ => fits_concat_op rfl rfl) (fun _ => fits_concat_op rfl rfl)
    (fun _ => fits_concat_op rfl rfl) ps

end Piece

/-- The code of a function ends in a return. -/
theorem compileReturn_ok {c c₁ : Compiler} {ps : List Piece} {d : Draft}
    (hw : c.Writes true ps d c₁) (hc : c.emission = {}) :
    ∃ c₂, compileReturn c₁ = .ok () c₂ ∧ c₂.draft = d ∧ c₂.outer = c.outer ∧
      c₂.emission.code.toList = Piece.layout 0 (Piece.asBody ps) := by
  have hpos : c.position = 0 := by rw [Compiler.position, hc]; rfl
  have hcode : c₁.emission.code.toList = Piece.layout 0 ps := by
    rw [hw.code, hpos, hc]
    rfl
  have hlast : ∀ op, c.emission.lastIs op = false := by
    intro op
    rw [hc]
    rfl
  by_cases hp : Piece.EndsInPop ps
  · obtain ⟨qs, rfl⟩ := hp
    have hpop : c₁.emission.lastIs .pop = true := (hw.lastIs_iff .pop rfl).mpr (.inr ⟨qs, rfl⟩)
    have hf := (Piece.fits_append.mp hw.fits).1
    rw [hpos] at hf
    have hl : c₁.emission.last = some ⟨.pop, (Piece.layout 0 qs).length⟩ := by
      rw [hw.last rfl, Emission.lastAfter, List.getLast?_concat, List.dropLast_concat, hc,
        Piece.length_layout hf]
      simp
    have hover : (c₁.emission.returnLast).code.toList =
        Piece.layout 0 qs ++ [Opcode.returnValue.code] := by
      rw [Piece.layout_append] at hcode
      have h := @Code.toList_overwrite c₁.emission.code (Piece.layout 0 qs) [Opcode.pop.code] []
        [Opcode.returnValue.code] (by
          rw [hcode]
          simp [Piece.layout, Piece.bytes, Instruction.bytes, Instruction.operandBytes,
            Opcode.widths]) rfl
      simpa [Emission.returnLast, hl] using h
    have hret : (c₁.emission.returnLast).lastIs .returnValue = true := by
      have hne : (c₁.emission.returnLast).code.isEmpty = false := by
        rw [Array.isEmpty_eq_false_iff]
        intro he
        rw [he] at hover
        simp at hover
      rw [Emission.lastIs, hne]
      simp [Emission.returnLast, hl]
    have hedit : CompileM.returnLast c₁ =
        .ok () { c₁ with emission := c₁.emission.returnLast } := by
      simp [CompileM.returnLast, CompileM.editLast, hl]
    refine ⟨{ c₁ with emission := c₁.emission.returnLast }, ?_, hw.draft, hw.outer, ?_⟩
    · simp [compileReturn, CompileM.emission, hpop, hedit, hret]
    · rw [Piece.asBody_concat_pop, Piece.layout_append, hover]
      simp [Piece.layout, Piece.bytes, Instruction.bytes, Instruction.operandBytes, Opcode.widths]
  · have hpop : c₁.emission.lastIs .pop = false := by
      rw [← Bool.not_eq_true, hw.lastIs_iff .pop rfl, hlast]
      rintro (⟨-, h⟩ | h)
      · cases h
      · exact hp h
    by_cases hr : Piece.EndsInReturn ps
    · have hret : c₁.emission.lastIs .returnValue = true :=
        (hw.lastIs_iff .returnValue rfl).mpr (.inr hr)
      refine ⟨c₁, ?_, hw.draft, hw.outer, ?_⟩
      · simp [compileReturn, CompileM.emission, hpop, hret]
      · obtain ⟨qs, rfl⟩ := hr
        rw [Piece.asBody_concat_returnValue, hcode]
    · have hret : c₁.emission.lastIs .returnValue = false := by
        rw [← Bool.not_eq_true, hw.lastIs_iff .returnValue rfl, hlast]
        rintro (⟨-, h⟩ | h)
        · cases h
        · exact hr h
      refine ⟨c₁.emitted ⟨.returnNull, []⟩, ?_, hw.draft, hw.outer, ?_⟩
      · have hi : Instruction.Encodable ⟨.returnNull, []⟩ := .nil
        simpa [compileReturn, hpop, hret] using CompileM.emit_eq_ok.mpr ⟨[], rfl, hi, rfl⟩
      · rw [Piece.asBody_of_not_ends hp hr, Compiler.toList_emitted, hcode, Piece.layout_append]
        simp [Piece.layout, Piece.bytes]

namespace Environment

@[simp] theorem length_nested_define (env : Environment) (name : String) :
    (env.define name).2.nested.length = env.nested.length := by
  unfold define
  split
  · rfl
  · rename_i h
    simp [h]

@[simp] theorem length_nested_defineFunctionName (env : Environment) (name : String) :
    (env.defineFunctionName name).nested.length = env.nested.length := by
  unfold defineFunctionName
  split
  · rfl
  · rename_i h
    simp [h]

private theorem length_nested_foldl_define (env : Environment) (names : List String) :
    (names.foldl (fun env name => (env.define name).2) env).nested.length =
      env.nested.length := by
  induction names generalizing env with
  | nil => rfl
  | cons name names ih => rw [List.foldl_cons, ih, length_nested_define]

end Environment

theorem acts_define (name : String) :
    Acts (CompileM.define name) fun d => some ((d.env.define name).1, d.define name) :=
  fun c => ⟨rfl, c.env.length_nested_define name⟩

theorem acts_nameOf (node : Node) :
    Acts (nameOf node) fun d => node.name?.map fun name => (name, d) := by
  intro c
  unfold nameOf
  cases node.name? with
  | none => exact ⟨_, _, rfl⟩
  | some name => exact ⟨rfl, rfl⟩

def defineParam (param : Node) : CompileM Unit := do discard (CompileM.define (← nameOf param))

/-- The parameters of a function are defined in turn. -/
theorem acts_params (params : List Node) :
    Acts (params.forM defineParam) fun d => (params.mapM Node.name?).map fun names =>
      ((), { d with env := names.foldl (fun env name => (env.define name).2) d.env }) := by
  induction params with
  | nil => exact fun c => ⟨rfl, rfl⟩
  | cons param params ih =>
    intro c
    have hcons : (param :: params).forM defineParam =
      (defineParam param >>= fun _ => params.forM defineParam) := rfl
    rw [hcons]
    dsimp only
    rw [List.mapM_cons]
    cases hname : param.name? with
    | none =>
      refine ⟨.missing .name, c, ?_⟩
      simp only [defineParam, nameOf, hname]
      rfl
    | some name =>
      have hp : defineParam param c = .ok () (c.withDraft (c.draft.define name)) := by
        simp only [defineParam, nameOf, hname]
        rfl
      have hrest := ih (c.withDraft (c.draft.define name))
      rw [EStateM.bind_ok hp]
      cases hnames : params.mapM Node.name? with
      | none =>
        rw [hnames] at hrest
        exact hrest
      | some names =>
        rw [hnames] at hrest
        exact ⟨hrest.1, hrest.2.trans (c.env.length_nested_define name)⟩

namespace Compiler

/-- The compilation at the start of a function's body. -/
def entered (c : Compiler) (name : Option String) (names : List String) : Compiler :=
  { c with
    env := (c.draft.enter name names).env
    emission := {}
    outer := c.emission :: c.outer }

/-- The compilation back in the enclosing code. -/
def returned (c c₁ : Compiler) : Compiler :=
  { c with constants := c₁.constants, env := c₁.env.leave }

theorem length_nested_enter (d : Draft) (name : Option String) (names : List String) :
    (d.enter name names).env.nested.length = d.env.nested.length + 1 := by
  unfold Draft.enter
  dsimp only
  rw [Environment.length_nested_foldl_define]
  split
  · rw [Environment.length_nested_defineFunctionName]
    rfl
  · rfl

theorem entered_nested {c : Compiler} (hn : c.Nested) (name : Option String)
    (names : List String) : (c.entered name names).Nested := by
  rw [Nested, entered, length_nested_enter]
  exact congrArg (· + 1) hn

end Compiler

/-- Opens a function and defines its own name and its parameters. -/
def openFunction (name : Option String) (params : List Node) : CompileM Unit := do
  CompileM.enterScope
  if let some name := given? name then CompileM.defineFunctionName name
  params.forM defineParam

/-- Loads what a function captures and makes a closure of it. -/
def makeFunction (name : Option String) (params : List Node) (table : Table) (code : Code) :
    CompileM Unit := do
  table.free.forM CompileM.load
  let i ← CompileM.addFunction fun id =>
    { id, code, numLocals := table.numDefinitions, numParams := params.length, name }
  CompileM.emit .closure [i, table.free.length]

theorem compileFunction_eq (name : Option String) (params : List Node) (body : CompileM Unit) :
    compileFunction name params body = (do
      openFunction name params
      body
      compileReturn
      let table := (← get).env.current
      let code ← CompileM.leaveScope
      makeFunction name params table code) := by
  unfold compileFunction openFunction makeFunction
  cases given? name with
  | none => simp only [bind_assoc]; rfl
  | some name => simp only [bind_assoc]; rfl

theorem openFunction_apply (name : Option String) (params : List Node) (c : Compiler) :
    openFunction name params c = (params.forM defineParam) (c.entered name []) := by
  unfold openFunction Compiler.entered Draft.enter
  cases given? name <;> rfl

theorem openFunction_cases (name : Option String) (params : List Node) (c : Compiler) :
    match params.mapM Node.name? with
    | some names => openFunction name params c = .ok () (c.entered name names)
    | none => ∃ e c', openFunction name params c = .error e c' := by
  have hp := acts_params params (c.entered name [])
  rw [openFunction_apply]
  cases h : params.mapM Node.name? with
  | none =>
    rw [h] at hp
    exact hp
  | some names =>
    rw [h] at hp
    exact hp.1

theorem Implements.loads {b : Bool} (symbols : List Symbol) :
    Implements b (symbols.forM CompileM.load) fun d ps d' =>
      (∀ s ∈ symbols, s.Loadable) ∧ ps = symbols.map Symbol.load ∧ d' = d := by
  induction symbols with
  | nil =>
    refine nil.congr fun d ps d' => ?_
    simp
  | cons s symbols ih =>
    have hcons : (s :: symbols).forM CompileM.load =
      (CompileM.load s >>= fun _ => symbols.forM CompileM.load) := rfl
    rw [hcons]
    refine ((load s).seq ih fun hb => ⟨hb, .inl hb⟩).congr fun d ps d' => ?_
    constructor
    · rintro ⟨d₁, qs, rs, ⟨hs, rfl, rfl⟩, ⟨hss, rfl, rfl⟩, rfl⟩
      exact ⟨List.forall_mem_cons.mpr ⟨hs, hss⟩, rfl, rfl⟩
    · rintro ⟨hs, rfl, rfl⟩
      obtain ⟨hs, hss⟩ := List.forall_mem_cons.mp hs
      exact ⟨_, _, _, ⟨hs, rfl, rfl⟩, ⟨hss, rfl, rfl⟩, rfl⟩

private theorem acts_addFunction (f : Nat → Prototype) :
    Acts (CompileM.addFunction f) fun d =>
      some (d.constants.size, d.addConstant (.function (f d.constants.size))) :=
  fun _ => ⟨rfl, rfl⟩

theorem Implements.makeFunction {b : Bool} (name : Option String) (params : List Node)
    (table : Table) (code : Code) :
    Implements b (makeFunction name params table code) fun d ps d' =>
      (∀ s ∈ table.free, s.Loadable) ∧
        ps = table.free.map Symbol.load ++
          [.op .closure [d.constants.size, table.free.length]] ∧
        d' = d.addConstant (.function
          { id := d.constants.size, code, numLocals := table.numDefinitions
            numParams := params.length, name }) := by
  have he := fun i : Nat => @emit b .closure rfl [i, table.free.length]
  refine ((loads table.free).seq (bind (acts_addFunction _) he)
    fun hb => ⟨hb, .inl hb⟩).congr fun d ps d' => ?_
  constructor
  · rintro ⟨d₁, qs, rs, ⟨hs, rfl, rfl⟩, ⟨i, d₂, hi, rfl, rfl⟩, rfl⟩
    cases hi
    exact ⟨hs, rfl, rfl⟩
  · rintro ⟨hs, rfl, rfl⟩
    exact ⟨d, _, _, ⟨hs, rfl, rfl⟩, ⟨_, _, rfl, rfl, rfl⟩, rfl⟩

section Function

variable {b : Bool} {c c₁ c' : Compiler} {name : Option String} {names : List String}
  {params : List Node} {ps qs : List Piece} {d d' : Draft}

/-- What is left to do once the statements of a function are written. -/
theorem closeFunction_apply (hw : (c.entered name names).Writes true ps d' c₁) :
    (do
      compileReturn
      let table := (← get).env.current
      let code ← CompileM.leaveScope
      makeFunction name params table code : CompileM Unit) c₁ =
    makeFunction name params d'.env.current (Piece.layout 0 (Piece.asBody ps)).toArray
      (c.returned c₁) := by
  obtain ⟨c₂, hret, hd, ho, hcode⟩ := compileReturn_ok hw rfl
  have hconst : c₂.constants = c₁.constants := congrArg Draft.constants (hd.trans hw.draft.symm)
  have henv : c₂.env = c₁.env := congrArg Draft.env (hd.trans hw.draft.symm)
  have hleave : CompileM.leaveScope c₂ =
      .ok (Piece.layout 0 (Piece.asBody ps)).toArray (c.returned c₁) := by
    have ho' : c₂.outer = c.emission :: c.outer := ho
    simp [CompileM.leaveScope, ho', ← hcode, Array.toArray_toList, hconst, henv, Compiler.returned]
  have htable : c₂.env.current = d'.env.current := by rw [← hd]; rfl
  rw [EStateM.bind_ok hret, EStateM.bind_ok (EStateM.get_apply c₂), htable, EStateM.bind_ok hleave]

theorem Compiler.draft_returned (hw : (c.entered name names).Writes true ps d' c₁) :
    (c.returned c₁).draft = ⟨d'.constants, d'.env.leave⟩ := by
  rw [← hw.draft]
  rfl

theorem Compiler.length_nested_returned (hw : (c.entered name names).Writes true ps d' c₁) :
    (c.returned c₁).env.nested.length = c.env.nested.length := by
  have hn : c₁.env.nested.length = c.env.nested.length + 1 := by
    rw [hw.env, hw.nested]
    exact length_nested_enter c.draft name names
  rw [returned, Environment.leave, List.length_tail, hn]
  rfl

theorem Compiler.returned_nested (hn : c.Nested)
    (hw : (c.entered name names).Writes true ps d' c₁) : (c.returned c₁).Nested :=
  hn.trans (length_nested_returned hw).symm

theorem Compiler.Writes.of_returned (hw : (c.entered name names).Writes true ps d' c₁)
    (h : (c.returned c₁).Writes b qs d c') : c.Writes b qs d c' :=
  ⟨h.draft, h.outer, h.nested.trans (length_nested_returned hw), h.code, h.fits, h.last⟩

/-- A function literal ends where its function is opened, where its body is written, or where its
closure is made. -/
theorem compileFunction_ends {body : CompileM Unit} {T : Draft → List Piece → Draft → Prop}
    (hb : Implements true body T) (hn : c.Nested) :
    (∃ e c', openFunction name params c = .error e c' ∧
        compileFunction name params body c = .error e c') ∨
      ∃ names, params.mapM Node.name? = some names ∧
        ((∃ e c', body (c.entered name names) = .error e c' ∧
            compileFunction name params body c = .error e c') ∨
          ∃ ps d c₁, body (c.entered name names) = .ok () c₁ ∧ T (c.draft.enter name names) ps d ∧
            (c.entered name names).Writes true ps d c₁ ∧
            compileFunction name params body c =
              makeFunction name params d.env.current (Piece.layout 0 (Piece.asBody ps)).toArray
                (c.returned c₁)) := by
  have hcases := openFunction_cases name params c
  rw [compileFunction_eq]
  cases hnames : params.mapM Node.name? with
  | none =>
    rw [hnames] at hcases
    obtain ⟨e, c', he⟩ := hcases
    exact .inl ⟨e, c', he, by rw [EStateM.bind_apply, he]⟩
  | some names =>
    rw [hnames] at hcases
    refine .inr ⟨names, rfl, ?_⟩
    rw [EStateM.bind_ok hcases]
    cases hbody : body (c.entered name names) with
    | error e c' => exact .inl ⟨e, c', rfl, by rw [EStateM.bind_apply, hbody]⟩
    | ok u c₁ =>
      obtain ⟨ps, d, ht, hw⟩ := hb.sound (Compiler.entered_nested hn name names) hbody
      exact .inr ⟨ps, d, c₁, rfl, ht, hw, by rw [EStateM.bind_ok hbody, closeFunction_apply hw]⟩

end Function

/-- A function is written apart; the enclosing code gets the closure. -/
theorem Implements.function {b : Bool} (name : Option String) (params : List Node)
    {body : CompileM Unit} {T : Draft → List Piece → Draft → Prop}
    (hb : Implements true body T) :
    Implements b (compileFunction name params body) fun d qs d'' =>
      ∃ names ps d', params.mapM Node.name? = some names ∧ T (d.enter name names) ps d' ∧
        Piece.Fits 0 (Piece.asBody ps) ∧ (∀ s ∈ d'.env.current.free, s.Loadable) ∧
        qs = d'.env.current.free.map Symbol.load ++
          [.op .closure [d'.constants.size, d'.env.current.free.length]] ∧
        d'' = d'.leave (.ofBody d' ps params name) where
  sound {c c'} hn h := by
    obtain ⟨e, _, -, he⟩ | ⟨names, hnames, ⟨e, _, -, he⟩ | ⟨ps, d', c₁, -, ht, hw, hmake⟩⟩ :=
      @compileFunction_ends c name params _ _ hb hn
    · cases h.symm.trans he
    · cases h.symm.trans he
    · rw [hmake] at h
      obtain ⟨qs, d'', ⟨hload, hqs, hd''⟩, hw'⟩ :=
        (Implements.makeFunction (b := b) _ _ _ _).sound (Compiler.returned_nested hn hw) h
      rw [Compiler.draft_returned hw] at hqs hd''
      exact ⟨qs, d'', ⟨names, ps, d', hnames, ht, Piece.fits_asBody.mpr hw.fits, hload, hqs, hd''⟩,
        hw.of_returned hw'⟩
  complete {c qs d''} hn ht hf := by
    obtain ⟨names, ps, d', hnames, ht, hfit, hload, rfl, rfl⟩ := ht
    have hcases := openFunction_cases name params c
    rw [hnames] at hcases
    obtain ⟨c₂, hbody, hw⟩ := hb.complete (Compiler.entered_nested hn name names) ht
      (Piece.fits_asBody.mp hfit)
    have hd := Compiler.draft_returned hw
    obtain ⟨c', h, hw'⟩ := (Implements.makeFunction (b := b) name params d'.env.current
      (Piece.layout 0 (Piece.asBody ps)).toArray).complete (Compiler.returned_nested hn hw)
      ⟨hload, rfl, rfl⟩ (by rw [hd]; exact hf)
    rw [hd] at hw'
    refine ⟨c', ?_, hw.of_returned hw'⟩
    rw [compileFunction_eq, EStateM.bind_ok hcases, EStateM.bind_ok hbody,
      closeFunction_apply hw, h]

end ClosureVM
