import ClosureVM.Proofs.Session.Limits
import ClosureVM.Proofs.Session.SingleAssignment

/-! What earlier calls have left above the stack pointer is never seen again. -/
namespace ClosureVM

namespace Machine

/-- What a run shows: its result, the globals it leaves behind, and its output. -/
def outcome? (fuel : Nat) (m : Machine) :
    Option (Except Failure Value × Slots × Array Output) :=
  (m.run? fuel).map fun e => (e.1, e.2.globals, e.2.output)

/-- The machine is about to set local `a`. -/
def SetsLocal (m : Machine) (a : Nat) : Prop := m.instruction? = some ⟨.setLocal, [a]⟩

/-- The machine is about to read local `a`. -/
def GetsLocal (m : Machine) (a : Nat) : Prop := m.instruction? = some ⟨.getLocal, [a]⟩

instance (m : Machine) (a : Nat) : Decidable (m.SetsLocal a) :=
  inferInstanceAs (Decidable (_ = _))

instance (m : Machine) (a : Nat) : Decidable (m.GetsLocal a) :=
  inferInstanceAs (Decidable (_ = _))

/-- The call with `depth` frames up to its own has not come to an end, and does not set its local
`a` next. -/
structure Skips (depth a : Nat) (m : Machine) : Prop where
  within : depth ≤ m.depth
  unset : m.depth = depth → ¬ m.SetsLocal a

instance (depth a : Nat) (m : Machine) : Decidable (m.Skips depth a) :=
  decidable_of_iff (depth ≤ m.depth ∧ (m.depth = depth → ¬ m.SetsLocal a))
    ⟨fun h => ⟨h.1, h.2⟩, fun h => ⟨h.within, h.unset⟩⟩

theorem SameRun.outcome_eq {l : Limits} {x x' : Option (Except Failure Value × Machine)}
    (h : SameRun l l x x') :
    x'.map (fun e => (e.1, e.2.globals, e.2.output)) =
      x.map fun e => (e.1, e.2.globals, e.2.output) := by
  cases h with
  | running => rfl
  | ended htwin =>
    obtain ⟨_, _, _, rfl⟩ := htwin
    rfl
  | exhausted _ hl => exact absurd rfl hl

end Machine

namespace Represents

variable {m : Machine} {c : Config} {stack : Slots}

private theorem carries_of_below (h : Represents m c)
    (hb : ∀ i : Nat, (i : Int) < m.sp → stack.get? i = m.stack.get? i) : stack.Carries c.stack := by
  intro i v hv
  have hi : i < c.stack.length := (List.getElem?_eq_some_iff.mp hv).1
  rw [hb i (by rw [h.sp, Config.height]; omega)]
  exact h.carries i v hv

/-- Another stack with the same values below the stack pointer. -/
theorem withStack (h : Represents m c) (hz : stack.size = m.stack.size)
    (hc : stack.Carries c.stack) : Represents { m with stack } c :=
  ⟨h.constants, h.globals, h.limits, h.tracing, h.lastPopped, h.written, h.untraced, h.fresh,
    h.sp, hz.trans h.size, hc, h.current, h.callers⟩

theorem alike (h : Represents m c) (hz : stack.size = m.stack.size)
    (hc : stack.Carries c.stack) : m.Alike m.limits m.limits { m with stack } where
  within := .refl _
  twin := ⟨m.limits, stack, m.steps, rfl⟩
  limits := rfl
  limits' := rfl
  size := by rw [h.limits, h.size]
  size' := by rw [h.limits, ← h.size, ← hz]
  values := ⟨c.stack, h.carries, hc, h.sp⟩
  steps := fun _ => rfl

/-- The rest of a run depends on nothing above the stack pointer. -/
theorem outcome_eq (h : Represents m c) (ht : c.Typed fun _ => True)
    (hz : stack.size = m.stack.size)
    (hb : ∀ i : Nat, (i : Int) < m.sp → stack.get? i = m.stack.get? i) (fuel : Nat) :
    Machine.outcome? fuel { m with stack } = m.outcome? fuel :=
  ((h.alike hz (h.carries_of_below hb)).run? h ht fuel).outcome_eq

end Represents

/-- Of nested calls, innermost first, the one with `k` callers has `null` in its local `a`. -/
def NullLocal (k a : Nat) (acts : List Activation) : Prop :=
  ∃ act, acts.reverse[k]? = some act ∧ act.locals[a]? = some .null

namespace NullLocal

variable {k a : Nat} {act act' : Activation} {acts : List Activation}

theorem of_cons (h : NullLocal k a (act :: acts)) :
    k < acts.length ∧ NullLocal k a acts ∨ k = acts.length ∧ act.locals[a]? = some .null := by
  obtain ⟨b, hb, hnull⟩ := h
  rw [List.reverse_cons] at hb
  obtain hlt | rfl | hgt := Nat.lt_trichotomy k acts.length
  · rw [List.getElem?_append_left (by rwa [List.length_reverse])] at hb
    exact .inl ⟨hlt, b, hb, hnull⟩
  · rw [← List.length_reverse, List.getElem?_concat_length] at hb
    cases hb
    exact .inr ⟨rfl, hnull⟩
  · rw [List.getElem?_eq_none (by simp; omega)] at hb
    cases hb

theorem cons (h : NullLocal k a acts) (act : Activation) : NullLocal k a (act :: acts) := by
  obtain ⟨b, hb, hnull⟩ := h
  have hk := (List.getElem?_eq_some_iff.mp hb).1
  refine ⟨b, ?_, hnull⟩
  rw [List.reverse_cons, List.getElem?_append_left hk, hb]

theorem head (h : act.locals[a]? = some .null) (acts : List Activation) :
    NullLocal acts.length a (act :: acts) := by
  refine ⟨act, ?_, h⟩
  rw [List.reverse_cons, ← List.length_reverse, List.getElem?_concat_length]

theorem congr (h : NullLocal k a (act :: acts)) (hl : act'.locals = act.locals) :
    NullLocal k a (act' :: acts) := by
  obtain ⟨-, hn⟩ | ⟨rfl, hn⟩ := h.of_cons
  · exact hn.cons _
  · apply NullLocal.head
    rw [hl]
    exact hn

end NullLocal

namespace Config

variable {c c' : Config} {k a : Nat}

/-- A local stays `null` until its call sets it. -/
theorem Moves.nullLocal {s : Option Nat} (hm : c.Moves s c')
    (h : NullLocal k a (c.current :: c.callers)) (hs : c.callers.length = k → s ≠ some a)
    (hk : k ≤ c'.callers.length) : NullLocal k a (c'.current :: c'.callers) := by
  cases hm with
  | stays hstays =>
    rw [hstays.callers]
    obtain ⟨-, hn⟩ | ⟨rfl, hn⟩ := h.of_cons
    · exact hn.cons _
    · apply NullLocal.head
      rw [hstays.locals a (hs rfl)]
      exact hn
  | enters _ _ _ hcallers =>
    rw [hcallers]
    apply NullLocal.cons
    exact h.congr rfl
  | leaves hcallers _ _ hlocals =>
    rw [hcallers] at h
    obtain ⟨-, hn⟩ | ⟨rfl, -⟩ := h.of_cons
    · exact hn.congr hlocals
    · rw [List.length_cons] at hk
      omega

theorem Next.nullLocal (hn : c.Next c') (h : NullLocal k a (c.current :: c.callers))
    (hs : c.callers.length = k → ∀ i rest, c.current.code = .ins i :: rest →
      i.op.local? (i.operands.getD 0 0) ≠ some a)
    (hk : k ≤ c'.callers.length) : NullLocal k a (c'.current :: c'.callers) := by
  unfold Next step at hn
  split at hn
  · cases hn
  · rename_i i rest hcode
    have hm := (execute_shape (c.withCode rest) _ _ _).moves hn
    exact hm.nullLocal (h.congr rfl) (fun hl => hs hl i rest hcode) hk
  · split at hn
    · cases hn
      exact h.congr rfl
    · cases hn
  · cases hn
    exact h.congr rfl

/-- A call starts with `null` in all locals that are no parameters. -/
theorem Next.enters_null (hn : c.Next c') (hd : c'.callers.length = c.callers.length + 1) :
    ∃ id proto free, c'.current.self = .closure id proto free ∧
      ∀ i : Nat, proto.numParams ≤ i → i < proto.numLocals →
        c'.current.locals[i]? = some .null := by
  have hne : c'.callers ≠ c.callers := by
    intro he
    rw [he] at hd
    omega
  unfold Next step at hn
  split at hn
  · cases hn
  · rename_i i rest hcode
    cases (execute_shape (c.withCode rest) _ _ _).moves hn with
    | stays hstays => exact absurd hstays.callers hne
    | enters _ _ hself _ _ hnull => exact ⟨_, _, _, hself, hnull⟩
    | leaves hcallers =>
      have hl := congrArg List.length hcallers
      change c.callers.length = _ at hl
      rw [List.length_cons] at hl
      omega
  · split at hn
    · cases hn
      exact absurd rfl hne
    · cases hn
  · cases hn
    exact absurd rfl hne

end Config

namespace Represents

variable {m m' : Machine} {c c' : Config} {k a : Nat}

/-- The instruction that sets a local is the only one to do so. -/
theorem setsLocal (hr : Represents m c) (ht : c.Typed fun _ => True) {i : Instruction}
    {rest : List Piece} (hcode : c.current.code = .ins i :: rest)
    (hi : i.op.local? (i.operands.getD 0 0) = some a) : m.SetsLocal a := by
  have hf := hr.current.follows
  rw [hcode] at hf
  obtain ⟨e, hcheck, -⟩ := ht.current.code
  rw [hcode] at hcheck
  generalize c.current.temps.length = h at hcheck
  have hset : i = ⟨.setLocal, [a]⟩ := by
    cases hcheck with
    | closure => cases hi
    | ins hu _ =>
      cases hu with
      | setLocal _ =>
        cases hi
        rfl
      | @binary op hop | @unary op hop | @nullary op hop =>
        cases op <;> first | cases hi; done | cases hop
      | _ => cases hi
  rw [hset] at hf
  exact hf.of_ins.1

/-- Reading a local pushes it. -/
theorem getsLocal (hr : Represents m c) (hr' : Represents m' c') (hn : c.Next c')
    (hget : m.GetsLocal a) {v : Value} (hv : c.current.locals[a]? = some v) :
    m'.sp = m.sp + 1 ∧ m'.stack.at? m.sp = some v := by
  obtain ⟨rest, hcode⟩ := hr.code_eq hget rfl
  have hpush : (c.withCode rest).push v = .next c' := by
    unfold Config.Next Config.step at hn
    rw [hcode] at hn
    simpa only [Config.execute, List.getD_cons_zero, Config.withCode, hv, Config.pushFound] using hn
  have hstack : c'.stack = c.stack ++ [v] := by
    rw [Config.push_eq_next hpush]
    exact (c.withCode rest).stack_withTemps_cons v
  constructor
  · rw [hr'.sp, hr.sp, Config.height, hstack, List.length_append]
    rfl
  · rw [hr.sp]
    apply hr'.carries.at?
    rw [hstack]
    exact List.getElem?_concat_length

end Represents

/-- Along a run that stays within a call and does not set one of its locals, the local stays
`null`. -/
theorem Machine.Reaches.nullLocal {m₁ m : Machine} {c₁ : Config} {k a : Nat}
    (h : Machine.Reaches (Skips (k + 1) a) m₁ m)
    (hr : Represents m₁ c₁) (ht : c₁.Typed fun _ => True)
    (hnull : NullLocal k a (c₁.current :: c₁.callers)) :
    ∃ c, Represents m c ∧ (c.Typed fun _ => True) ∧ NullLocal k a (c.current :: c.callers) := by
  induction h with
  | start _ => exact ⟨c₁, hr, ht, hnull⟩
  | @step m m' hreach hn hp ih =>
    obtain ⟨c, hrep, htyped, hnull⟩ := ih
    obtain ⟨c', hnext, hrep', htyped'⟩ := hrep.next htyped hn
    have hk : k ≤ c'.callers.length := by
      have hdepth := hp.within
      rw [hrep'.depth_eq] at hdepth
      omega
    refine ⟨c', hrep', htyped', hnext.nullLocal hnull (fun hl i rest hcode hset => ?_) hk⟩
    apply hreach.property.unset
    · rw [hrep.depth_eq, hl]
    · exact hrep.setsLocal htyped hcode hset

/-- A local that its call has not set is `null`. -/
theorem Represents.exists_null {m₀ m₁ m : Machine} {c₀ : Config} {a : Nat}
    (hr : Represents m₀ c₀) (ht : c₀.Typed fun _ => True) (hn : m₀.Next m₁)
    (hdepth : m₁.depth = m₀.depth + 1) (hparams : m₁.frame.proto.numParams ≤ a)
    (hlocals : a < m₁.frame.proto.numLocals)
    (hcall : Machine.Reaches (Machine.Skips m₁.depth a) m₁ m) (hsame : m.depth = m₁.depth) :
    ∃ c, Represents m c ∧ (c.Typed fun _ => True) ∧ c.current.locals[a]? = some .null := by
  obtain ⟨c₁, hnext, hr₁, ht₁⟩ := hr.next ht hn
  rw [hr₁.depth_eq, hr.depth_eq] at hdepth
  obtain ⟨id, proto, free, hself, hnull⟩ := hnext.enters_null (Nat.succ.inj hdepth)
  have hproto : proto = m₁.frame.proto := by
    obtain hs | hs := hr₁.current.self
    · rw [hs] at hself
      cases hself
    · rw [hself] at hs
      cases hs
      rfl
  subst hproto
  rw [hr₁.depth_eq] at hcall hsame
  obtain ⟨c, hrep, htyped, hlocal⟩ :=
    hcall.nullLocal hr₁ ht₁ (NullLocal.head (hnull a hparams hlocals) c₁.callers)
  rw [hrep.depth_eq] at hsame
  obtain ⟨hlt, -⟩ | ⟨-, h⟩ := hlocal.of_cons
  · omega
  · exact ⟨c, hrep, htyped, h⟩

/-- Nothing above the stack pointer matters to a compiled program: not what a new machine has on
its stack, and not what calls leave there. A local that its call has not set reads as `null`. -/
theorem Session.Reached.stale_slots_invisible {P : Machine → Prop} {s s₁ : Session}
    {program : Node} {code : Code} (limits : Limits) (tracing : Bool) (hs : Session.Reached P s)
    (hc : s.compile program = (.ok code, s₁)) :
    (∀ stack : Slots, stack.size = limits.stackSize.toNat → ∀ fuel,
      Machine.outcome? fuel { s₁.machineWithin limits tracing code with stack } =
        (s₁.machineWithin limits tracing code).outcome? fuel) ∧
    ∀ stack₀ : Slots, stack₀.size = limits.stackSize.toNat → ∀ m₀ : Machine,
      Machine.Reaches (fun _ => True)
        { s₁.machineWithin limits tracing code with stack := stack₀ } m₀ →
      (∀ stack : Slots, stack.size = m₀.stack.size →
        (∀ i : Nat, (i : Int) < m₀.sp → stack.get? i = m₀.stack.get? i) → ∀ fuel,
          Machine.outcome? fuel { m₀ with stack } = m₀.outcome? fuel) ∧
      ∀ (m₁ m : Machine) (a : Nat), m₀.Next m₁ → m₁.depth = m₀.depth + 1 →
        m₁.frame.proto.numParams ≤ a → a < m₁.frame.proto.numLocals →
        Machine.Reaches (Machine.Skips m₁.depth a) m₁ m → m.depth = m₁.depth →
        m.stack.at? (m.frame.base + a) = some .null ∧
          ∀ m', m.GetsLocal a → m.Next m' →
            m'.sp = m.sp + 1 ∧ m'.stack.at? m.sp = some .null := by
  have hsound := hs.sound (fun _ _ => trivial) fun m _ => m.measures_true
  obtain ⟨ps, hstart⟩ := hsound.start hc
  obtain ⟨hrep, ht⟩ := hstart limits tracing
  constructor
  · intro stack hz fuel
    refine hrep.outcome_eq ht hz (fun i hi => ?_) fuel
    change (i : Int) < 0 at hi
    omega
  · intro stack₀ hz m₀ hreach
    have hrep₀ := hrep.withStack hz (Slots.Carries.nil stack₀)
    obtain ⟨c₀, -, hr, ht₀⟩ := hreach.represents hrep₀ ht (fun _ _ => trivial)
      fun m _ => m.measures_true
    refine ⟨fun stack hz hb fuel => hr.outcome_eq ht₀ hz hb fuel, ?_⟩
    intro m₁ m a hn hdepth hparams hlocals hcall hsame
    obtain ⟨c, hr', ht', hnull⟩ := hr.exists_null ht₀ hn hdepth hparams hlocals hcall hsame
    refine ⟨hr'.at?_local hnull, fun m' hget hn' => ?_⟩
    have hstep := hr'.step_ordinary ht' hn'.1 (fun _ _ => trivial) m.measures_true
    rw [hn'.2] at hstep
    obtain ⟨c', hnext, hr'', -⟩ := hstep
    exact hr'.getsLocal hr'' hnext hget hnull

/-- A function binds a local and returns; the next call passes over its binding, and reads `null`
in the place where the first has left an integer. -/
theorem Session.Reached.stale_slots_invisible_skipped :
    ∃ (program : Node) (code : Code) (s₁ : Session) (m₀ m₁ m m' : Machine),
      Session.compile {} program = (.ok code, s₁) ∧
      Machine.Reaches (fun _ => True) (s₁.machineWithin {} false code) m₀ ∧ m₀.Next m₁ ∧
      (m₀.stack.at? m₁.frame.base).map Value.kind = some .integer ∧
      m.GetsLocal 0 ∧ m.Next m' ∧ m'.stack.at? m.sp = some .null := by
  let program : Node := .program none [
    .letStmt none (.ident none "f") (.fnLit none [] (.block none [
      .letStmt none (.ident none "x") (.intLit none (.int 7)),
      .exprStmt none (.ident none "x")]) none),
    .letStmt none (.ident none "g") (.fnLit none [] (.block none [
      .exprStmt none (.ifExpr none (.boolLit none false)
        (some (.block none [.letStmt none (.ident none "x") (.intLit none (.int 8))])) none),
      .exprStmt none (.ident none "x")]) none),
    .exprStmt none (.call none (.ident none "f") []),
    .exprStmt none (.call none (.ident none "g") [])]
  -- the call of `g` is the thirteenth step, and reads its local four steps after its start
  have hwalk : ((Session.compile {} program).1.toOption.bind fun code =>
      (((Session.compile {} program).2.machineWithin {} false code).walk? (fun _ => true) 12).bind
        fun m₀ => (m₀.walk? (fun _ => true) 1).bind
        fun m₁ => (m₁.walk? (fun m => decide (m.Skips m₁.depth 0)) 4).bind
        fun m => (m.walk? (fun _ => true) 1).filter
        fun _ => decide (m₁.depth = m₀.depth + 1 ∧ m₁.frame.proto.numParams ≤ 0 ∧
          0 < m₁.frame.proto.numLocals ∧ m.depth = m₁.depth ∧
          (m₀.stack.at? m₁.frame.base).map Value.kind = some .integer ∧
          m.GetsLocal 0)).isSome = true := by
    decide +kernel
  clear_value program
  obtain ⟨m', hm'⟩ := Option.isSome_iff_exists.mp hwalk
  obtain ⟨code, hcode, hm'⟩ := Option.bind_eq_some_iff.mp hm'
  obtain ⟨m₀, hm₀, hm'⟩ := Option.bind_eq_some_iff.mp hm'
  obtain ⟨m₁, hm₁, hm'⟩ := Option.bind_eq_some_iff.mp hm'
  obtain ⟨m, hm, hm'⟩ := Option.bind_eq_some_iff.mp hm'
  obtain ⟨hm', hcond⟩ := Option.filter_eq_some_iff.mp hm'
  obtain ⟨hdepth, hparams, hlocals, hsame, hkind, hget⟩ := of_decide_eq_true hcond
  have hc := compile_of_toOption hcode
  have hreach := (Machine.reaches_of_walk? hm₀).with fun _ _ => trivial
  have hcall := (Machine.reaches_of_walk? hm).with fun m hr => of_decide_eq_true hr.property
  have hn := Machine.next_of_walk? hm₁
  have hn' := Machine.next_of_walk? hm'
  have hread := ((stale_slots_invisible (P := fun _ => True) {} false (.new false false none) hc).2
    { size := 2048 } rfl m₀ hreach).2 m₁ m 0 hn hdepth hparams hlocals hcall hsame
  exact ⟨program, code, _, m₀, m₁, m, m', hc, hreach, hn, hkind, hget, hn',
    (hread.2 m' hget hn').2⟩

end ClosureVM
