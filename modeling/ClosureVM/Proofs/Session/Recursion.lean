import ClosureVM.Proofs.Machine.Instructions
import ClosureVM.Proofs.Session.History

/-! Programs whose calls go as deep as their machine lets them. -/
namespace ClosureVM

/-- Whatever the depth, there are limits within which the code makes calls of that depth. -/
def Session.RecursWithoutBound (s : Session) (tracing : Bool) (code : Code) : Prop :=
  ∀ depth, ∃ limits m, Machine.Reaches (fun _ => True) (s.machineWithin limits tracing code) m ∧
    depth ≤ m.depth

/-- A function without parameters that calls itself before it does anything else. -/
structure Prototype.CallsItself (proto : Prototype) (rest : List Piece) : Prop where
  body : proto.HasBody (.op .currentClosure :: .op .call [0] :: rest)
  params : proto.numParams = 0
  locals : 0 ≤ proto.numLocals

/-- A call of such a function has just begun. -/
structure Config.CallBegins (proto : Prototype) (rest : List Piece) (c : Config) : Prop where
  self : ∃ id free, c.current.self = .closure id proto free
  code : c.current.code = .op .currentClosure :: .op .call [0] :: rest

namespace Prototype.CallsItself

variable {c : Config} {proto : Prototype} {rest : List Piece}

/-- With room for it, a call of the function begins. -/
theorem exists_call (hp : proto.CallsItself rest) {id : Nat} {free temps : List Value}
    {after : List Piece} (hcode : c.current.code = .op .call [0] :: after)
    (htemps : c.current.temps = .closure id proto free :: temps)
    (hs : c.height + proto.numLocals ≤ c.limits.stackSize)
    (hf : c.callers.length + 1 < c.limits.maxFrames) :
    ∃ c', c.Next c' ∧ c'.CallBegins proto rest ∧ c'.callers.length = c.callers.length + 1 ∧
      c'.height = c.height + proto.numLocals := by
  have hlocals := hp.locals
  have hstep : c.step = (c.withCode after).invoke [] temps (.closure id proto free) :=
    @Config.step_call c after _ [] temps hcode htemps
  have hroom : ((c.withCode after).height : Int) - ([] : List Value).length + proto.numLocals ≤
      c.limits.stackSize := by
    change (c.height : Int) - 0 + _ ≤ _
    omega
  have harity : (([] : List Value).length : Int) = proto.numParams := hp.params.symm
  rw [Config.invoke, Config.enter_of_room hp.body harity hlocals hroom hf] at hstep
  refine ⟨_, hstep, ⟨⟨id, free, rfl⟩, rfl⟩, rfl, ?_⟩
  simp only [Config.height_eq, stackOf, Activation.values, Config.withCode, Activation.withTemps,
    htemps, List.length_append, List.length_reverse, List.length_cons, List.length_nil,
    List.length_replicate]
  omega

/-- With room for it, a call of the function leads to another one. -/
theorem exists_deeper (hp : proto.CallsItself rest) (h : c.CallBegins proto rest)
    (hs : c.height + (1 + proto.numLocals) ≤ c.limits.stackSize)
    (hf : c.callers.length + 1 < c.limits.maxFrames) :
    ∃ c', Relation.ReflTransGen Config.Next c c' ∧ c'.CallBegins proto rest ∧
      c'.callers.length = c.callers.length + 1 ∧ c'.height = c.height + (1 + proto.numLocals) := by
  obtain ⟨id, free, hself⟩ := h.self
  have hlocals := hp.locals
  let c₁ := (c.withCode (.op .call [0] :: rest)).withTemps (c.current.self :: c.current.temps)
  have h₁ : c.Next c₁ := by
    have hroom : ((c.withCode (.op .call [0] :: rest)).height : Int) < c.limits.stackSize := by
      change (c.height : Int) < _
      omega
    exact (Config.step_currentClosure h.code hself).trans (Config.push_of_room hroom _)
  have hheight : c₁.height = c.height + 1 := by
    simp only [c₁, Config.height_eq, Config.withTemps, Activation.withTemps, Config.withCode,
      List.length_cons]
    omega
  have htemps : c₁.current.temps = .closure id proto free :: c.current.temps := by rw [← hself]; rfl
  obtain ⟨c', h₂, hbegins, hcallers, hheight'⟩ := hp.exists_call (c := c₁) rfl htemps
    (by change _ ≤ c.limits.stackSize; omega) hf
  exact ⟨c', (Relation.ReflTransGen.single h₁).tail h₂, hbegins, hcallers, by omega⟩

/-- With room for them, a call of the function leads to any number of further ones. -/
theorem exists_callers (hp : proto.CallsItself rest) (h : c.CallBegins proto rest) {n : Nat}
    (hs : c.height + n * (1 + proto.numLocals) ≤ c.limits.stackSize)
    (hf : c.callers.length + n < c.limits.maxFrames) :
    ∃ c', Relation.ReflTransGen Config.Next c c' ∧ c'.callers.length = c.callers.length + n := by
  induction n generalizing c with
  | zero => exact ⟨c, .refl, rfl⟩
  | succ n ih =>
    have hlocals := hp.locals
    have hpos : 0 ≤ n * (1 + proto.numLocals) := Int.mul_nonneg (by omega) (by omega)
    rw [Nat.cast_succ, Int.add_mul, Int.one_mul] at hs
    obtain ⟨c₁, hsteps, h₁, hcallers, hheight⟩ := hp.exists_deeper h (by omega) (by omega)
    have hlimits := (Config.keeps_of_steps hsteps).2.1
    obtain ⟨c₂, hsteps', hcallers'⟩ := ih h₁ (by rw [hlimits]; omega) (by rw [hlimits]; omega)
    exact ⟨c₂, hsteps.trans hsteps', by omega⟩

/-- A function of the pool is made a closure, bound to a global, put on the stack and called. -/
theorem exists_first_call (hp : proto.CallsItself rest) {k g : Nat} {after : List Piece}
    (hcode : c.current.code = .op .closure [k, 0] :: .op .setGlobal [g] :: .op .getGlobal [g] ::
      .op .call [0] :: after)
    (hk : c.constants[k]? = some (.function proto)) (hg : g < c.globals.size)
    (hs : c.height + (1 + proto.numLocals) ≤ c.limits.stackSize)
    (hf : c.callers.length + 1 < c.limits.maxFrames) :
    ∃ c', Relation.ReflTransGen Config.Next c c' ∧ c'.CallBegins proto rest ∧
      c'.callers.length = c.callers.length + 1 ∧ c'.height = c.height + (1 + proto.numLocals) := by
  have hlocals := hp.locals
  have hroom : (c.height : Int) < c.limits.stackSize := by omega
  let closure : Value := .closure c.fresh proto []
  let calling := .op .call [0] :: after
  let loading := .op .getGlobal [g] :: calling
  let fresh : Config := { c with fresh := c.fresh + 1 }
  let bound : Config := { fresh with globals := c.globals.set g closure }
  let made := (fresh.withCode (.op .setGlobal [g] :: loading)).withTemps
    (closure :: c.current.temps)
  let loaded := (bound.withCode calling).withTemps (closure :: c.current.temps)
  have hmade : c.Next made :=
    (@Config.step_closure c _ [] c.current.temps k proto hcode rfl hk).trans
      (@Config.push_of_room (fresh.withCode (.op .setGlobal [g] :: loading)) hroom closure)
  have hbound : made.Next (bound.withCode loading) := Config.step_setGlobal rfl rfl hg
  have hloaded : (bound.withCode loading).Next loaded := by
    rw [Config.Next, Config.step_op rfl]
    change Config.pushFound _ ((c.globals.set g closure).get? g) = _
    rw [Slots.get?_set, if_pos ⟨rfl, hg⟩]
    exact @Config.push_of_room (bound.withCode calling) hroom closure
  have hheight : loaded.height = c.height + 1 := by
    simp only [loaded, bound, fresh, Config.height_eq, Config.withTemps, Activation.withTemps,
      Config.withCode, List.length_cons]
    omega
  have hroom' : loaded.height + proto.numLocals ≤ c.limits.stackSize := by omega
  obtain ⟨c', hcalled, hbegins, hcallers, hheight'⟩ := @exists_call loaded _ _ hp _ _ _ _ rfl rfl
    hroom' hf
  exact ⟨c', (((Relation.ReflTransGen.single hmade).tail hbound).tail hloaded).tail hcalled,
    hbegins, hcallers, by omega⟩

/-- A program that makes the function, binds it to a global and calls it goes on to any number of
calls. -/
theorem exists_recursion (hp : proto.CallsItself rest) {k g : Nat} {after : List Piece}
    (hcode : c.current.code = .op .closure [k, 0] :: .op .setGlobal [g] :: .op .getGlobal [g] ::
      .op .call [0] :: after)
    (hk : c.constants[k]? = some (.function proto)) (hg : g < c.globals.size) {n : Nat}
    (hs : c.height + (1 + proto.numLocals) + n * (1 + proto.numLocals) ≤ c.limits.stackSize)
    (hf : c.callers.length + 1 + n < c.limits.maxFrames) :
    ∃ c', Relation.ReflTransGen Config.Next c c' ∧
      c'.callers.length = c.callers.length + 1 + n := by
  have hlocals := hp.locals
  have hpos : 0 ≤ n * (1 + proto.numLocals) := Int.mul_nonneg (by omega) (by omega)
  obtain ⟨c₁, hsteps, hbegins, hcallers, hheight⟩ :=
    hp.exists_first_call hcode hk hg (by omega) (by omega)
  have hlimits := (Config.keeps_of_steps hsteps).2.1
  obtain ⟨c₂, hsteps', hcallers'⟩ :=
    hp.exists_callers hbegins (n := n) (by rw [hlimits]; omega) (by rw [hlimits]; omega)
  exact ⟨c₂, hsteps.trans hsteps', by omega⟩

end Prototype.CallsItself

/-- A function that calls itself, and a call of it. -/
def Node.selfCall (name : String) : List Node :=
  [.letStmt none (.ident none name) (.fnLit none [] (.block none
      [.exprStmt none (.call none (.ident none name) [])]) none),
    .exprStmt none (.call none (.ident none name) [])]

namespace Translates

variable {d d' : Draft} {ps : List Piece} {name : String}

/-- A call without arguments is a look-up of the callee and the call itself. -/
theorem of_call {line line' line'' : Line}
    (h : Translates (.stmts [.exprStmt line (.call line' (.ident line'' name) [])]) d ps d') :
    ∃ s env, d.env.resolve? name = some (s, env) ∧ ps = [s.load, .op .call [0], .op .pop] ∧
      d' = { d with env } := by
  cases h with
  | stmts hstmt hnone =>
  cases hnone
  cases hstmt with
  | exprStmt hexpr =>
  cases hexpr with
  | call hcallee hargs =>
  cases hargs
  cases hcallee with
  | ident hresolve _ => exact ⟨_, _, hresolve, rfl, rfl⟩

/-- Inside the function, its name stands for the closure at work. -/
theorem of_selfCall (hname : name ≠ "") (hd : d.env.nested = [])
    (h : Translates (.stmts (Node.selfCall name)) d ps d') :
    ∃ k g proto, ps = [.op .closure [k, 0], .op .setGlobal [g], .op .getGlobal [g],
        .op .call [0], .op .pop] ∧
      d'.constants[k]? = some (.function proto) ∧ proto.CallsItself [.op .returnValue] ∧
      proto.numLocals = 0 := by
  have hbound (line : Line) (body : Node) : (Node.fnLit line [] body none).boundTo name =
      .fnLit line [] body (some name) := by
    simp [Node.boundTo, bindingName, given?, hname]
  have hself : (Table.defineFunctionName {} name).2.find? name = some ⟨name, .self, 0⟩ :=
    (Table.find?_insert ..).trans (if_pos rfl)
  obtain ⟨constants, global, nested⟩ := d
  cases hd
  have henter : Draft.enter ⟨constants, global, []⟩ (some name) [] =
      ⟨constants, global, [(Table.defineFunctionName {} name).2]⟩ := by
    rw [Draft.enter, given?_some, if_neg hname]
    rfl
  cases h with
  | stmts hlet hcall =>
  cases hlet with
  | letStmt htarget hvalue =>
  cases htarget
  rw [hbound] at hvalue
  cases hvalue with
  | fnLit hparams hbody hstmts hfits _ =>
  cases hparams
  cases hbody
  obtain ⟨s, env, hresolve, rfl, rfl⟩ := of_call hstmts
  rw [List.reverse_nil, henter] at hresolve hcall ⊢
  rw [Environment.resolve?, Environment.resolveIn, hself] at hresolve
  cases hresolve
  obtain ⟨s, env, hresolve, rfl, rfl⟩ := of_call hcall
  have hfound : (global.define .global name).2.find? name = some (global.define .global name).1 :=
    (Table.find?_insert ..).trans (if_pos rfl)
  change (Environment.resolveIn (global.define .global name).2 name []).map _ = _ at hresolve
  rw [Environment.resolveIn, hfound] at hresolve
  cases hresolve
  exact ⟨constants.size, global.numDefinitions, _, rfl, Array.getElem?_push_size,
    ⟨⟨hfits, rfl⟩, rfl, Int.le_refl 0⟩, rfl⟩

end Translates

/-- A function that calls itself recurs without bound, whatever was compiled before it. -/
theorem Session.Sound.recursWithoutBound {N : Int → Prop} {s s₁ : Session} {name : String}
    {code : Code} (hs : s.Sound N) (hname : name ≠ "")
    (hc : s.compile (.program none (Node.selfCall name)) = (.ok code, s₁)) (tracing : Bool) :
    s₁.RecursWithoutBound tracing code := by
  intro depth
  obtain ⟨line, statements, ps, d, ⟨⟩, ht, hf, rfl, rfl⟩ := compile_eq_ok.mp hc
  obtain ⟨k, g, proto, rfl, hproto, hcalls, hlocals⟩ := ht.of_selfCall hname rfl
  have hg : g < s.globals.size := by
    obtain ⟨-, ⟨-, hfit⟩, -⟩ := hf
    rw [hs.globals.size]
    exact (List.forall₂_cons.mp hfit).1
  let limits : Limits := ⟨depth + 1, depth + 2, none⟩
  let c₀ := Config.start [.op .closure [k, 0], .op .setGlobal [g], .op .getGlobal [g],
    .op .call [0], .op .pop] d.constants s.globals limits tracing s.fresh
  have hroom : c₀.height + (1 + proto.numLocals) + depth * (1 + proto.numLocals) ≤
      c₀.limits.stackSize := by
    rw [hlocals, Int.add_zero, Int.mul_one]
    change (0 : Int) + 1 + depth ≤ depth + 1
    omega
  have hframes : c₀.callers.length + 1 + depth < c₀.limits.maxFrames := by
    change (0 : Int) + 1 + depth < depth + 2
    omega
  obtain ⟨c, hsteps, hcallers⟩ := hcalls.exists_recursion rfl hproto hg hroom hframes
  obtain ⟨m, hm, hrep⟩ := (Represents.start hf ..).exists_reaches rfl hsteps
  refine ⟨limits, m, hm, ?_⟩
  rw [hrep.depth_eq]
  omega

end ClosureVM
