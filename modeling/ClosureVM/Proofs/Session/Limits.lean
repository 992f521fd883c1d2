import ClosureVM.Proofs.Machine.Alike
import ClosureVM.Proofs.Session.History

/-! A program does not notice the limits of its machine until it exhausts them. -/
namespace ClosureVM

/-- A caller keeps its callee on the stack. -/
theorem CallChain.stackOf_pos {a : Activation} {callers : List Activation}
    (h : CallChain a callers) (hf : a.shape.inFunction = true) : 0 < (stackOf callers).length := by
  cases callers with
  | nil =>
    rw [CallChain.inFunction_eq_false h] at hf
    cases hf
  | cons b callers =>
    have hb : 0 < b.temps.length := List.length_pos_of_ne_nil h.2.1
    simp only [stackOf, Activation.values, List.length_append, List.length_reverse]
    omega

namespace Represents

variable {m : Machine} {c : Config} {N : Int → Prop}

/-- A closure on the stack has room for its arguments among its locals. -/
theorem numParams_le (hr : Represents m c) (ht : c.Typed N) {n : Nat}
    (hn : n < c.current.temps.length) {id : Nat} {proto : Prototype} {free : List Value}
    (hv : m.stack.at? (m.sp - 1 - n) = some (.closure id proto free)) :
    proto.numParams ≤ proto.numLocals := by
  have hd := List.drop_eq_getElem_cons hn
  rw [hr.at?_below hd] at hv
  have hs := ht.current.temps _ (List.getElem_mem hn)
  rw [Option.some.inj hv] at hs
  cases hs with
  | closure _ hp _ =>
    obtain ⟨_, _, -, -, -, hle, -⟩ := hp
    exact hle

private theorem owns_of_uses (hr : Represents m c) (ht : c.Typed N) {i : Instruction}
    {pops pushes h : Nat} (hu : i.Uses c.constants c.current.shape pops pushes)
    (hlen : c.current.temps.length = h + pops) :
    m.Owns i.op (i.operands.getD 0 0) (i.operands.getD 1 0) := by
  have hsp := hr.sp
  rw [c.height_eq] at hsp
  have hbase := hr.current.base
  have hlocals := c.current.shape_numLocals
  cases hu with
  | getLocal ha | setLocal ha =>
    rw [hlocals] at ha
    simp only [Machine.Owns, List.getD_cons_zero]
    omega
  | array n =>
    simp only [Machine.Owns, List.getD_cons_zero]
    omega
  | hash heven =>
    simp only [Machine.Owns, List.getD_cons_zero]
    omega
  | call n =>
    have hn : n < c.current.temps.length := by omega
    refine ⟨?_, fun id proto free hv => hr.numParams_le ht hn hv⟩
    simp only [List.getD_cons_zero]
    omega
  | returnValue hfun | returnNull hfun =>
    have hpos := ht.chain.stackOf_pos hfun
    simp only [Machine.Owns]
    omega
  | @binary op hop | @unary op hop | @nullary op hop => cases op <;> trivial
  | _ => trivial

/-- Checked code only touches what its call owns. -/
theorem owns (hr : Represents m c) (ht : c.Typed N) (hf : m.finished = false) :
    ∃ i, m.frame.code.fetch? m.frame.ip = some i ∧
      m.Owns i.op (i.operands.getD 0 0) (i.operands.getD 1 0) := by
  have hfol := hr.current.follows
  obtain ⟨e, hcheck, -⟩ := ht.current.code
  cases hcode : c.current.code with
  | nil =>
    rw [hr.finished_iff.mpr hcode] at hf
    cases hf
  | cons p rest =>
    rw [hcode] at hfol hcheck
    cases p with
    | branch t e =>
      obtain ⟨target, hi, -⟩ := hfol.of_branch
      exact ⟨_, hi, trivial⟩
    | skip =>
      obtain ⟨target, hi, -⟩ := hfol.of_skip
      exact ⟨_, hi, trivial⟩
    | ins i =>
      obtain ⟨hi, -⟩ := hfol.of_ins
      refine ⟨i, hi, ?_⟩
      generalize hlen : c.current.temps.length = n at hcheck
      cases hcheck with
      | ins hu _ => exact hr.owns_of_uses ht hu hlen
      | closure =>
        have hsp := hr.sp
        rw [c.height_eq] at hsp
        simp only [Machine.Owns, List.getD_cons_succ, List.getD_cons_zero]
        omega

end Represents

namespace Machine

variable {l l' : Limits} {m m' : Machine}

theorem Twin.finished_eq (h : m.Twin m') : m'.finished = m.finished := by
  obtain ⟨_, _, _, rfl⟩ := h
  rfl

private theorem Twin.lastPopped_eq (h : m.Twin m') : m'.lastPopped = m.lastPopped := by
  obtain ⟨_, _, _, rfl⟩ := h
  rfl

private theorem Twin.failure_eq (h : m.Twin m') (s : Stop) : m'.failure s = m.failure s := by
  obtain ⟨_, _, _, rfl⟩ := h
  rfl

private theorem exhausted_of_fault {f : Fault} (hf : f.IsResource) (m : Machine) :
    Exhausted (.error (m.failure (.fault f))) := ⟨f, m.ip, m.stackTrace, rfl, hf⟩

/-- A new machine may find anything on its stack. -/
theorem Alike.new (hl : l.Within l') (code : Code) (constants : Array Value) (globals : Slots)
    (tracing : Bool) (fresh : Nat) (stack : Slots) (hs : stack.size = l'.stackSize.toNat) :
    Alike l l' (.new code constants globals l tracing fresh)
      { Machine.new code constants globals l' tracing fresh with stack } where
  within := hl
  twin := ⟨l', stack, 0, rfl⟩
  limits := rfl
  limits' := rfl
  size := rfl
  size' := hs
  values := ⟨[], Slots.Carries.nil _, Slots.Carries.nil _, rfl⟩
  steps := fun _ => rfl

/-- How far two runs come within the same number of steps. -/
inductive SameRun (l l' : Limits) :
    Option (Except Failure Value × Machine) → Option (Except Failure Value × Machine) → Prop
  | running : SameRun l l' none none
  | ended {r : Except Failure Value} {m m' : Machine} :
    m.Twin m' → SameRun l l' (some (r, m)) (some (r, m'))
  | exhausted {r : Except Failure Value} {m : Machine}
    {x : Option (Except Failure Value × Machine)} :
    Exhausted r → l ≠ l' → SameRun l l' (some (r, m)) x

theorem Twin.run?_of_finished (h : m.Twin m') (hf : m.finished = true) (fuel : Nat) :
    SameRun l l' (m.run? fuel) (m'.run? fuel) := by
  rw [Machine.run?_of_finished hf, Machine.run?_of_finished (h.finished_eq.trans hf),
    h.lastPopped_eq]
  exact .ended h

/-- Machines that are alike run alike. -/
theorem Alike.run? (h : Alike l l' m m') {c : Config} (hr : Represents m c)
    (ht : c.Typed fun _ => True) (fuel : Nat) : SameRun l l' (m.run? fuel) (m'.run? fuel) := by
  induction fuel generalizing m m' c with
  | zero =>
    cases hf : m.finished with
    | true => exact h.twin.run?_of_finished hf 0
    | false =>
      rw [Machine.run?, Machine.run?, h.twin.finished_eq, hf]
      exact .running
  | succ fuel ih =>
    cases hf : m.finished with
    | true => exact h.twin.run?_of_finished hf (fuel + 1)
    | false =>
      obtain ⟨i, hi, ho⟩ := hr.owns ht hf
      have hend := h.step hi ho
      have hnext := hr.step_ordinary ht hf (fun _ _ => trivial) m.measures_true
      have hf' : m'.finished = false := h.twin.finished_eq.trans hf
      generalize hs : MachineM.step m = r at hend hnext
      generalize hs' : MachineM.step m' = r' at hend
      cases hend with
      | ok h₁ =>
        obtain ⟨c₁, -, hr₁, ht₁⟩ := hnext
        rw [Next.run? ⟨hf, hs⟩, Next.run? ⟨hf', hs'⟩]
        exact ih h₁ hr₁ ht₁
      | @error s m₁ m₁' htwin =>
        rw [run?_of_stop hf hs, run?_of_stop hf' hs', htwin.failure_eq]
        exact .ended htwin
      | @exhausted f m₁ _ hres hl =>
        rw [run?_of_stop hf hs]
        exact .exhausted (exhausted_of_fault hres m₁) hl

end Machine

/-- A run that does not exhaust its limits ends within all wider limits, and in the same way: with
the same value or the same error at the same place, the same globals and the same output. -/
theorem Session.Reached.wider_limits_same_run {P : Machine → Prop} {s s₁ : Session}
    {program : Node} {code : Code} {limits limits' : Limits} {tracing : Bool} {fuel : Nat}
    {r : Except Failure Value} {m : Machine} (hs : Session.Reached P s)
    (hc : s.compile program = (.ok code, s₁)) (hl : limits.Within limits')
    (hr : (s₁.machineWithin limits tracing code).run? fuel = some (r, m))
    (hres : ¬ Exhausted r) :
    ∃ m', (s₁.machineWithin limits' tracing code).run? fuel = some (r, m') ∧
      m'.globals = m.globals ∧ m'.output = m.output := by
  have hsound := hs.sound (fun _ _ => trivial) fun m _ => m.measures_true
  obtain ⟨ps, hstart⟩ := hsound.start hc
  obtain ⟨hrep, ht⟩ := hstart limits tracing
  have halike := Machine.Alike.new hl code s₁.constants s₁.globals tracing s₁.fresh
    { size := limits'.stackSize.toNat } rfl
  have hsame := halike.run? hrep ht fuel
  change Machine.SameRun limits limits' ((s₁.machineWithin limits tracing code).run? fuel)
    ((s₁.machineWithin limits' tracing code).run? fuel) at hsame
  rw [hr] at hsame
  generalize (s₁.machineWithin limits' tracing code).run? fuel = x at hsame
  cases hsame with
  | @ended _ _ m' htwin =>
    refine ⟨m', rfl, ?_⟩
    obtain ⟨_, _, _, rfl⟩ := htwin
    exact ⟨rfl, rfl⟩
  | exhausted hex _ => exact absurd hex hres

/-- A program with a call that needs five places on the stack, two frames and eighteen steps, and
can do with them. -/
theorem Session.Reached.wider_limits_same_run_call :
    ∃ (program : Node) (code : Code) (s₁ : Session) (v : Value) (m m' : Machine),
      Session.compile {} program = (.ok code, s₁) ∧
      (∀ tighter ∈ [⟨4, 2, some 18⟩, ⟨5, 1, some 18⟩, ⟨5, 2, some 17⟩], ∃ r m,
        (s₁.machineWithin tighter false code).run? 18 = some (r, m) ∧ Exhausted r) ∧
      (s₁.machineWithin ⟨5, 2, some 18⟩ false code).run? 18 = some (.ok v, m) ∧
      m.output = #[.puts "3"] ∧
      (s₁.machineWithin {} false code).run? 18 = some (.ok v, m') ∧
      m'.globals = m.globals ∧ m'.output = m.output := by
  let program : Node := .program none [
    .letStmt none (.ident none "f") (.fnLit none [.ident none "a"] (.block none [
      .letStmt none (.ident none "b") (.binary none (.ident none "a") "+" (.intLit none (.int 1))),
      .exprStmt none (.call none (.ident none "puts") [.ident none "b"]),
      .exprStmt none (.binary none (.ident none "b") "*" (.ident none "b"))]) none),
    .exprStmt none (.call none (.ident none "f") [.intLit none (.int 2)])]
  have hruns : ((Session.compile {} program).1.toOption.bind fun code =>
      ((((Session.compile {} program).2.machineWithin ⟨5, 2, some 18⟩ false code).run? 18).filter
        fun x => x.1.toOption.isSome && decide (x.2.output = #[.puts "3"])).filter
        fun _ => [⟨4, 2, some 18⟩, ⟨5, 1, some 18⟩, ⟨5, 2, some 17⟩].all fun tighter =>
          (((Session.compile {} program).2.machineWithin tighter false code).run? 18).any
            fun x => decide (Exhausted x.1)).isSome = true := by
    decide +kernel
  clear_value program
  obtain ⟨⟨r, m⟩, hm⟩ := Option.isSome_iff_exists.mp hruns
  obtain ⟨code, hcode, hm⟩ := Option.bind_eq_some_iff.mp hm
  obtain ⟨hm, htight⟩ := Option.filter_eq_some_iff.mp hm
  obtain ⟨hm, hcond⟩ := Option.filter_eq_some_iff.mp hm
  obtain ⟨hr, hout⟩ := Bool.and_eq_true_iff.mp hcond
  have hc := compile_of_toOption hcode
  have hl : Limits.Within ⟨5, 2, some 18⟩ {} :=
    ⟨⟨by decide, by decide⟩, fun max h => by cases h⟩
  cases r with
  | error e => cases hr
  | ok v =>
    have hres : ¬ Exhausted (.ok v) := by
      rintro ⟨f, ip, calls, ⟨⟩, -⟩
    obtain ⟨m', hrun, hglobals, houtput⟩ :=
      wider_limits_same_run (P := fun _ => True) (.new false false none) hc hl hm hres
    refine ⟨program, code, _, v, m, m', hc, fun tighter ht => ?_, hm, of_decide_eq_true hout, hrun,
      hglobals, houtput⟩
    obtain ⟨x, hx, hex⟩ := (Option.any_eq_true ..).mp (List.all_eq_true.mp htight tighter ht)
    exact ⟨x.1, x.2, hx, of_decide_eq_true hex⟩

end ClosureVM
