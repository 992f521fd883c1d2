import ClosureVM.Proofs.Compiler.Correspondence
import ClosureVM.Proofs.Compiler.Ordered
import ClosureVM.Proofs.Evaluation.Calls
import ClosureVM.Proofs.Session.History

/-! Running a compiled program comes to what evaluating its tree comes to. -/
namespace ClosureVM

/-- A machine leaves behind what an evaluation does, when `values` are bound in this order. -/
structure SameState (pool : Array Value) (values : List Value) (m : Machine) (p : Progress) :
    Prop where
  room : values.length ≤ numGlobals
  globals : m.globals.Starts values
  bindings : List.Forall₂ (Denotes pool values) p.globals values
  output : m.output.toList.filterMap Output.puts? = p.written

/-- A run of code from the compiler `c` ends like an evaluation: with the same value, and the names
stand for the same values, or with the same error. -/
inductive SameOutcome (c : Compiler) :
    Except Failure Value → Machine → EStateM.Result Interrupt Progress Datum → Prop
  | value {v : Value} {m : Machine} {d : Datum} {p : Progress} (values : List Value) :
    SameState c.constants values m p → Denotes c.constants values p.result v →
      (∀ x s, c.env.global.find? x = some s → ∃ e w, p.scope.lookup x = some e ∧
        s.sharedValue? values = some w ∧ Denotes c.constants values e w) →
      SameOutcome c (.ok v) m (.ok d p)
  | failure {s : Stop} {m : Machine} {p : Progress} (values : List Value) :
    SameState c.constants values m p → SameOutcome c (.error (m.failure s)) m (.error (.stopped s) p)

/-- A run with enough resources ends like that of its configuration. -/
theorem Config.Ends.of_run? {c c' : Config} {r : Except Stop Value} (h : c.Ends r c')
    {m₀ m : Machine} (hm : Represents m₀ c) {fuel : Nat} {r' : Except Failure Value}
    (hr : m₀.run? fuel = some (r', m)) (hres : ¬ Exhausted r') :
    Represents m c' ∧ r' = r.mapError m.failure := by
  obtain ⟨fuel', m', ⟨max, -, hlimit⟩ | ⟨hm', hrun⟩⟩ := h.run? hm
  · cases Machine.run?_unique hr hlimit
    exact absurd ⟨_, _, _, rfl, trivial⟩ hres
  · cases Machine.run?_unique hr hrun
    exact ⟨hm', rfl⟩

theorem Config.Overflows.exhausted {c : Config} (h : c.Overflows) {m₀ m : Machine}
    (hm : Represents m₀ c) {fuel : Nat} {r : Except Failure Value}
    (hr : m₀.run? fuel = some (r, m)) : Exhausted r := by
  obtain ⟨s, c', he, ho⟩ := h
  by_contra hres
  obtain ⟨-, rfl⟩ := he.of_run? hm hr hres
  obtain rfl | rfl := ho <;> exact hres ⟨_, _, _, rfl, trivial⟩

private theorem Table.find?_builtins {x : String} {s : Symbol}
    (h : Table.builtins.find? x = some s) : ∃ b, Bindings.builtins.lookup x = some (.builtin b) ∧
      s.sharedValue? [] = some (.builtin b) := by
  obtain rfl := Table.name_of_find? h
  have hall : ∀ s ∈ Table.builtins.symbols, ∃ b ∈ Builtin.all,
      b.name = s.name ∧ s.storage = .builtin ∧ Builtin.all[s.index.toNat]? = some b := by decide
  have hlookup (b : Builtin) : Bindings.builtins.lookup b.name = some (.builtin b) := by
    cases b <;> rfl
  obtain ⟨b, -, hname, hs, hb⟩ := hall s (List.mem_of_find?_eq_some h)
  refine ⟨b, hname ▸ hlookup b, ?_⟩
  rw [Symbol.sharedValue?, hs]
  dsimp only
  rw [hb]
  rfl

/-- A program about to start agrees with its evaluation. -/
theorem Agrees.start {pool : Array Value} {n : Nat} {final : Table} (ps : List Piece)
    {limits : Limits} (tracing : Bool) (fresh : Nat) (hn : limits.maxFrames ≤ n + 1)
    (hg : Table.builtins.Grows final) (hf : final.numDefinitions ≤ numGlobals) :
    Agrees pool n final {} [] (.start ps pool { size := numGlobals } limits tracing fresh)
      { scope := .builtins, fresh } where
  constants := rfl
  depth := by
    change limits.maxFrames ≤ (0 : Nat) + 1 + n
    omega
  level := ⟨fun _ => rfl, fun _ => rfl⟩
  grows := hg
  capacity := fun _ => hf
  slots := ⟨rfl, fun i v hv => (Slots.get?_eq_some hv).2.symm⟩
  scope :=
    { shared := fun x s _ hs => by
        obtain ⟨b, hb, hv⟩ := Table.find?_builtins hs
        exact ⟨.builtin b, .builtin b, hb, Symbol.value?_of_shared hv, .builtin b⟩
      own := fun s ⟨t, outer, hn, _⟩ => nomatch hn
      later := fun t outer hn => nomatch hn
      free := fun hn => absurd rfl hn }
  self := fun hn => absurd rfl hn
  room := fun t outer hn => nomatch hn
  count := fun _ => rfl
  base := fun _ => Nat.le_refl _
  bound := fun _ => .nil
  result := fun _ => .null
  written := rfl
  fresh := rfl

theorem Represents.sameState {pool : Array Value} {values : List Value} {m : Machine} {c : Config}
    {p : Progress} (h : Represents m c) (hs : c.globals.Starts values)
    (hw : c.written = p.written) (hl : values.length ≤ numGlobals)
    (hb : List.Forall₂ (Denotes pool values) p.globals values) : SameState pool values m p :=
  ⟨hl, h.globals ▸ hs, hb, h.written.trans hw⟩

/-- A run of a program that follows an evaluation to its end has the same outcome. -/
theorem Simulates.sameOutcome {c : Compiler} {n : Nat} {final : Table} {env : Environment}
    {post : List Value → Datum → List Value → Prop} {gs : List Value} {config : Config}
    {result : EStateM.Result Interrupt Progress Datum}
    (h : Simulates c.constants n final env [] post gs config result) (hnil : config.callers = [])
    (hn : env.nested = []) (hclosed : env.Closed) (hglobal : c.env.global = env.global)
    {m₀ m : Machine} (hm : Represents m₀ config) {fuel : Nat} {r : Except Failure Value}
    (hr : m₀.run? fuel = some (r, m)) (hres : ¬ Exhausted r) : SameOutcome c r m result := by
  obtain ho | h := h
  · exact absurd (ho.exhausted hm hr) hres
  match result, h with
  | .ok a p, ⟨gs', config', _, hs, _, _, hcode, _, ha⟩ =>
    obtain ⟨hm', rfl⟩ := (Config.Ends.of_steps hs (.done hcode)).of_run? hm hr hres
    refine .value gs' (hm'.sameState ha.slots ha.written (ha.length_le hn) (ha.bound hn))
      (ha.result (ha.level.mpr hn)) fun x s hx => ?_
    rw [hglobal] at hx
    obtain ⟨e, w, he, hw, hd⟩ := ha.scope.shared x s (by rw [hn]; exact List.forall_mem_nil _) hx
    exact ⟨e, w, he, Symbol.sharedValue?_of_isShared
      (hclosed.global s (Environment.find?_mem hx)) hw, hd⟩
  | .error (.returned d) p, ⟨hne, _⟩ => exact absurd hnil hne
  | .error (.stopped s) p, ⟨gs', config', he, _, _, hslots, hwritten, hb⟩ =>
    obtain ⟨hm', rfl⟩ := he.of_run? hm hr hres
    exact .failure gs' (hm'.sameState hslots hwritten (hb hnil).1 (hb hnil).2)

/-- Whether the compiled program ends in the integer `k` within so many steps. -/
def Node.endsIn (program : Node) (steps : Nat) (k : Int) : Bool :=
  match compileProgram program {} with
  | .ok code c =>
    match (Machine.new code c.constants { size := numGlobals } {} false 1).run? steps with
    | some (.ok (.int n), _) => n == k
    | _ => false
  | .error _ _ => false

theorem Node.endsIn_eq_true {program : Node} {steps : Nat} {k : Int}
    (h : program.endsIn steps k = true) :
    ∃ code c m, compileProgram program {} = .ok code c ∧
      (Machine.new code c.constants { size := numGlobals } {} false 1).run? steps =
        some (.ok (.int k), m) := by
  unfold endsIn at h
  split at h
  · rename_i code c hc
    split at h
    · rename_i n m hr
      exact ⟨code, c, m, hc, eq_of_beq h ▸ hr⟩
    · cases h
  · cases h

/-- A compiled program starts in a configuration that follows the evaluation of its tree. -/
theorem compileProgram_simulates {program : Node} {code : Code} {c : Compiler}
    (hc : compileProgram program {} = .ok code c) {limits : Limits} (tracing : Bool) (fresh : Nat)
    {depth : Nat} (hdepth : limits.maxFrames ≤ depth + 1) :
    ∃ final env post config, Simulates c.constants depth final env [] post [] config
        (program.evaluate depth fresh) ∧
      config.callers = [] ∧ env.nested = [] ∧ env.Closed ∧ c.env.global = env.global ∧
      Represents (Machine.new code c.constants { size := numGlobals } limits tracing fresh)
        config := by
  obtain ⟨line, statements, ps, rfl, -, ht, hf, rfl⟩ := Compiler.compileProgram_ok hc
  have horderly : Environment.Orderly {} := ⟨⟨Table.shared_builtins, trivial⟩, trivial⟩
  obtain ⟨horderly', hevolves⟩ := ht.evolves horderly
  have hnested : c.env.nested = [] :=
    List.forall₂_nil_left_iff.mp (ht.leads horderly.closed hf).grows
  have hroom : c.env.current.numDefinitions ≤ numGlobals := by
    rw [Environment.current, hnested]
    exact (ht.orders horderly Table.numbered_builtins).ordered.le_numGlobals hf (Nat.zero_le _)
  have ha : Agrees c.constants depth c.env.current {} [] _ _ :=
    .start ps tracing fresh hdepth hevolves.grows hroom
  have hsim := (ht.realized (callsFollow c.constants depth)
    ⟨horderly, ⟨0, hf⟩, .refl _, .refl _⟩).1 [] [] _ _ ha (List.append_nil ps).symm
  exact ⟨_, _, _, _, hsim, rfl, hnested, horderly'.closed, rfl,
    .start hf c.constants { size := numGlobals } limits tracing fresh⟩

/-- Within any limits, a run of a compiled program that does not exhaust its resources ends like the
evaluation of its tree: with the same value or the same error, the same globals and the same
output. It makes no difference how deep the evaluation may go, if that is as deep as the run. -/
theorem compiled_run_evaluates {program : Node} {code : Code} {c : Compiler}
    (hc : compileProgram program {} = .ok code c) (limits : Limits) (tracing : Bool) (fresh : Nat)
    {fuel : Nat} {r : Except Failure Value} {m : Machine}
    (hr : (Machine.new code c.constants { size := numGlobals } limits tracing fresh).run? fuel =
      some (r, m)) (hres : ¬ Exhausted r) {depth : Nat} (hdepth : limits.maxFrames ≤ depth + 1) :
    SameOutcome c r m (program.evaluate depth fresh) := by
  obtain ⟨_, _, _, _, hs, hnil, hn, hclosed, hglobal, hm⟩ :=
    compileProgram_simulates hc tracing fresh hdepth
  exact hs.sameOutcome hnil hn hclosed hglobal hm hr hres

/-- A closure that captures a variable is called, and a binding is passed over. -/
theorem compiled_run_evaluates_closure :
    ∃ program code c m, compileProgram program {} = .ok code c ∧
      (Machine.new code c.constants { size := numGlobals } {} false 1).run? 40 =
        some (.ok (.int 3), m) ∧
      SameOutcome c (.ok (.int 3)) m (program.evaluate 1023 1) := by
  let program : Node := .program none [
    .letStmt none (.ident none "f") (.fnLit none [.ident none "x"] (.block none [
      .exprStmt none (.fnLit none [.ident none "y"] (.block none [
        .exprStmt none (.binary none (.ident none "x") "+" (.ident none "y"))]) none)]) none),
    .exprStmt none (.ifExpr none (.boolLit none true)
      (some (.block none [.exprStmt none (.call none
        (.call none (.ident none "f") [.intLit none (.int 1)]) [.intLit none (.int 2)])]))
      (some (.block none [.letStmt none (.ident none "f") (.intLit none (.int 5))])))]
  have hends : program.endsIn 40 3 = true := by decide +kernel
  obtain ⟨code, c, m, hc, hr⟩ := Node.endsIn_eq_true hends
  have hres : ¬ Exhausted (.ok (.int 3)) := by
    rintro ⟨f, ip, calls, ⟨⟩, -⟩
  exact ⟨program, code, c, m, hc, hr, compiled_run_evaluates hc {} false 1 hr hres (by decide)⟩

end ClosureVM
