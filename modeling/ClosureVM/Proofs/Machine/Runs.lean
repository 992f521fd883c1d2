import Mathlib.Logic.Relation
import ClosureVM.Proofs.Code.Scanning
import ClosureVM.Proofs.Machine.Lockstep
import ClosureVM.Proofs.Machine.Moves

/-! Steps and whole runs of a machine, compared with those of the configuration it
represents. -/
namespace ClosureVM

/-- Whether execution goes on behind the instruction unless it says otherwise. -/
def Opcode.advances : Opcode → Bool
  | jump | returnValue | returnNull => false
  | _ => true

namespace MachineM

/-- The machine moves on by the length of an instruction. -/
theorem stride_eq (op : Opcode) : stride op = if op.advances then op.size else 0 := by
  cases op <;> rfl

/-- The machine expects operands of the widths that they are written in. -/
theorem operandsAt?_eq {code : Code} {op : Opcode} {ip : Nat} (h : ip + op.size ≤ code.size) :
    operandsAt? code op ip = some ((code.instructionAt op ip).operands.getD 0 0,
      (code.instructionAt op ip).operands.getD 1 0) := by
  have hone (hs : op.size = 2) :
      code.readOperand? (ip + 1 : Nat) 1 = some (code.readOperand (ip + 1 : Nat) 1) :=
    Code.readOperand?_eq (by omega)
  have htwo (hs : 3 ≤ op.size) :
      code.readOperand? (ip + 1 : Nat) 2 = some (code.readOperand (ip + 1 : Nat) 2) :=
    Code.readOperand?_eq (by omega)
  cases op with
  | constant | jumpNotTruthy | jump | getGlobal | setGlobal | array | hash =>
    rw [operandsAt?, htwo (by decide)]
    rfl
  | getLocal | setLocal | getBuiltin | getFree | call =>
    rw [operandsAt?, hone rfl]
    rfl
  | closure =>
    have hlast : code.readOperand? (ip + 3 : Nat) 1 = some (code.readOperand (ip + 3 : Nat) 1) :=
      Code.readOperand?_eq h
    rw [operandsAt?, htwo (by decide), hlast]
    rfl
  | _ => rfl

section CountStep

variable {m : Machine}

theorem countStep_of_none (h : m.limits.maxSteps = none) : countStep m = .ok () m := by
  simp [countStep, h]

theorem countStep_of_le {max : Int} (h : m.limits.maxSteps = some max)
    (hm : ¬ max < (m.steps + 1 : Nat)) : countStep m = .ok () { m with steps := m.steps + 1 } := by
  simp only [countStep, EStateM.bind_apply, EStateM.get_apply, h, EStateM.modify_apply, if_neg hm]
  rfl

theorem countStep_of_lt {max : Int} (h : m.limits.maxSteps = some max)
    (hm : max < (m.steps + 1 : Nat)) :
    countStep m = .error (.fault (.stepLimit max)) { m with steps := m.steps + 1 } := by
  simp only [countStep, EStateM.bind_apply, EStateM.get_apply, h, EStateM.modify_apply, if_pos hm]
  rfl

/-- Counting a step changes the counter only, and fails only at a step limit. -/
theorem countStep_cases (m : Machine) :
    ∃ steps, countStep m = .ok () { m with steps } ∨
      ∃ max, m.limits.maxSteps = some max ∧
        countStep m = .error (.fault (.stepLimit max)) { m with steps } := by
  cases hl : m.limits.maxSteps with
  | none => exact ⟨m.steps, .inl (countStep_of_none hl)⟩
  | some max =>
    refine ⟨m.steps + 1, ?_⟩
    by_cases hs : max < (m.steps + 1 : Nat)
    · exact .inr ⟨max, rfl, countStep_of_lt hl hs⟩
    · exact .inl (countStep_of_le hl hs)

end CountStep

/-- What is left of a step once it is counted, when the instruction under execution is `i`. -/
def afterCount (i : Instruction) : MachineM Unit := do
  let m ← get
  if m.tracing then write (.trace (traceText m.frame.ip i m.sp))
  if i.op.advances then jumpTo (m.frame.ip + i.size)
  execute i.op (i.operands.getD 0 0) (i.operands.getD 1 0)

end MachineM

namespace Machine

/-- With the line that a trace has for the instruction. -/
def traced (m : Machine) (i : Instruction) : Machine :=
  if m.tracing then
    { m with output := m.output.push (.trace (MachineM.traceText m.frame.ip i m.sp)) }
  else m

/-- Behind the instruction, unless it is one that does not advance. -/
def advanced (m : Machine) (op : Opcode) : Machine :=
  if op.advances then { m with frame := { m.frame with ip := m.frame.ip + op.size } } else m

end Machine

namespace MachineM

theorem afterCount_apply (i : Instruction) (m : Machine) :
    afterCount i m =
      execute i.op (i.operands.getD 0 0) (i.operands.getD 1 0) ((m.traced i).advanced i.op) := by
  unfold Machine.traced Machine.advanced
  cases ht : m.tracing <;> cases ha : i.op.advances <;>
    simp [afterCount, ht, ha, write, Instruction.size]

/-- A trace and the machine look up the opcode of the same byte, so that one look-up is enough. -/
theorem step_eq_lookup : step = (do
    let ip := (← get).frame.ip
    let code := (← get).frame.code
    modify fun m => { m with ip }
    let byte ← need code[ip]?
    countStep
    let op ← opcodeOf byte
    if (← get).tracing then write (.trace (traceText ip (code.instructionAt op ip) (← sp)))
    let (a, b) ← need (operandsAt? code op ip)
    jumpTo (ip + stride op)
    execute op a b) := by
  funext m
  simp only [step, EStateM.bind_apply, EStateM.get_apply, EStateM.modify_apply]
  cases hb : m.frame.code[m.frame.ip]? with
  | none => rfl
  | some byte =>
    simp only [need_some]
    cases countStep { m with ip := m.frame.ip } with
    | error stop m' => rfl
    | ok u m' =>
      dsimp only
      cases ht : m'.tracing with
      | false =>
        cases hop : Opcode.ofByte? byte <;> simp [opcodeOf, hop, ht]
      | true =>
        cases hop : Opcode.ofByte? byte <;> simp [trace, opcodeOf, hb, hop, ht, need, write, sp]

theorem step_eq {m : Machine} {i : Instruction} (h : m.frame.code.fetch? m.frame.ip = some i) :
    step m = (countStep >>= fun _ => afterCount i) { m with ip := m.frame.ip } := by
  obtain ⟨byte, hb, hop, hs, hi⟩ := Code.fetch?_eq_some h
  have ho := operandsAt?_eq hs
  rw [hi] at ho
  obtain ⟨steps, hc | ⟨max, -, hc⟩⟩ := countStep_cases { m with ip := m.frame.ip }
  · rw [EStateM.bind_ok hc]
    simp only [step_eq_lookup, EStateM.bind_apply, EStateM.get_apply, EStateM.modify_apply, hb,
      need, EStateM.pure_apply, hc, opcodeOf, hop, hi, ho, stride_eq, afterCount, Instruction.size]
    cases m.tracing <;> cases i.op.advances <;>
      simp [write]
  · simp [step, hb, hc]

end MachineM

namespace Represents

variable {m : Machine} {c : Config}

/-- The place of errors and the step counter are left open. -/
theorem count (h : Represents m c) (ip steps : Nat) : Represents { m with ip, steps } c :=
  ⟨h.constants, h.globals, h.limits, h.tracing, h.lastPopped, h.written, h.untraced, h.fresh,
    h.sp, h.size, h.carries, h.current, h.callers⟩

theorem trace (h : Represents m c) (ht : m.tracing = true) (text : String) :
    Represents { m with output := m.output.push (.trace text) } c := by
  refine ⟨h.constants, h.globals, h.limits, h.tracing, h.lastPopped, ?_, ?_, h.fresh, h.sp,
    h.size, h.carries, h.current, h.callers⟩
  · simp [h.written, Output.puts?]
  · intro hf
    rw [← h.tracing, ht] at hf
    cases hf

theorem afterCount (h : Represents m c) (i : Instruction) :
    ∃ m', Represents m' c ∧ m'.frame = m.frame ∧ m'.callers = m.callers ∧
      MachineM.afterCount i m = MachineM.execute i.op (i.operands.getD 0 0) (i.operands.getD 1 0)
        (if i.op.advances then
          { m' with frame := { m'.frame with ip := m'.frame.ip + i.size } } else m') := by
  cases ht : m.tracing with
  | false =>
    refine ⟨m, h, rfl, rfl, ?_⟩
    cases ha : i.op.advances <;>
      simp [MachineM.afterCount, ht, ha]
  | true =>
    refine ⟨_, h.trace ht (MachineM.traceText m.frame.ip i m.sp), rfl, rfl, ?_⟩
    cases ha : i.op.advances <;>
      simp [MachineM.afterCount, ht, ha, MachineM.write]

/-- A return does not look at the code behind it. -/
theorem execute_of_advances_eq_false (c : Config) (code : List Piece) {op : Opcode}
    (hp : op.isPlain) (ha : op.advances = false) (a b : Nat) :
    (c.withCode code).execute op a b = c.execute op a b := by
  cases op <;> first | cases hp; done | cases ha; done | rfl

/-- A step that has been counted does what the configuration does. -/
theorem afterCount_covers (h : Represents m c) (hc : c.current.code ≠ []) :
    ∃ i, m.frame.code.fetch? m.frame.ip = some i ∧ c.step.Covers (MachineM.afterCount i m) := by
  have hf := h.current.follows
  rw [Config.step]
  cases hcode : c.current.code with
  | nil => exact absurd hcode hc
  | cons p rest =>
    rw [hcode] at hf
    cases p with
    | ins i =>
      obtain ⟨hi, hp, hr⟩ := hf.of_ins
      obtain ⟨m', h', hfr, -, he⟩ := h.afterCount i
      refine ⟨i, hi, ?_⟩
      rw [he]
      rw [← hfr] at hr
      cases ha : i.op.advances with
      | true => exact (h'.goOn hr).execute _ _ _
      | false =>
        dsimp only
        rw [execute_of_advances_eq_false _ _ hp ha]
        exact h'.execute _ _ _
    | branch t e =>
      obtain ⟨target, hi, -, ht, he⟩ := hf.of_branch
      obtain ⟨m', h', hfr, -, hm⟩ := h.afterCount ⟨.jumpNotTruthy, [target]⟩
      refine ⟨_, hi, ?_⟩
      rw [hm]
      rw [← hfr] at ht he
      have h₁ := h'.goOn ht
      cases hv : c.current.temps with
      | nil => trivial
      | cons v temps =>
        obtain ⟨hpop, h₂⟩ := h₁.pop hv
        change (Effect.next _).Covers
          ((MachineM.pop >>= fun v => unless v.truthy do MachineM.jumpTo target)
            { m' with frame := { m'.frame with ip := m'.frame.ip + 3 } })
        rw [EStateM.bind_ok hpop]
        cases v.truthy with
        | true => exact ⟨_, rfl, h₂⟩
        | false => exact ⟨_, rfl, h₂.goOn he⟩
    | skip =>
      obtain ⟨target, hi, -, hr⟩ := hf.of_skip
      obtain ⟨m', h', hfr, -, hm⟩ := h.afterCount ⟨.jump, [target]⟩
      refine ⟨_, hi, ?_⟩
      rw [hm]
      rw [← hfr] at hr
      exact ⟨_, rfl, h'.goOn hr⟩

/-- A step of the machine fails at a step limit, or does what the configuration does. -/
theorem step (h : Represents m c) (hc : c.current.code ≠ []) :
    (∃ max m', c.limits.maxSteps = some max ∧
      MachineM.step m = .error (.fault (.stepLimit max)) m' ∧ Represents m' c) ∨
    c.step.Covers (MachineM.step m) := by
  obtain ⟨steps, hcount⟩ := MachineM.countStep_cases { m with ip := m.frame.ip }
  have hr := h.count m.frame.ip steps
  obtain ⟨i, hi, hcov⟩ := hr.afterCount_covers hc
  rw [@MachineM.step_eq m i hi]
  obtain hok | ⟨max, hmax, herr⟩ := hcount
  · rw [EStateM.bind_ok hok]
    exact .inr hcov
  · refine .inl ⟨max, _, ?_, ?_, hr⟩
    · rw [← h.limits]
      exact hmax
    · rw [EStateM.bind_apply, herr]

theorem finished_iff (h : Represents m c) : m.finished = true ↔ c.current.code = [] := by
  have hf := h.current.follows
  rw [Machine.finished, decide_eq_true_iff]
  cases hc : c.current.code with
  | nil =>
    rw [hc] at hf
    have := hf.eq_size
    simp only [iff_true]
    omega
  | cons p rest =>
    rw [hc] at hf
    have := hf.lt_size
    simp only [reduceCtorEq, iff_false]
    omega

end Represents

namespace Config

theorem step_keeps (c : Config) : c.step.Keeps c := by
  unfold step
  split
  · trivial
  · exact (execute_shape (c.withCode _) _ _ _).keeps
  · split
    · exact ⟨rfl, rfl, rfl, rfl⟩
    · trivial
  · exact ⟨rfl, rfl, rfl, rfl⟩

/-- A configuration goes over to another in one step. -/
def Next (c c' : Config) : Prop := c.step = .next c'

/-- What a run ends with: the value popped last once no code is left, or a stop. -/
inductive Ends : Config → Except Stop Value → Config → Prop
  | done {c : Config} : c.current.code = [] → Ends c (.ok c.lastPopped) c
  | stop {c c' : Config} {s : Stop} : c.step = .stop s c' → Ends c (.error s) c'
  | next {c c₁ c' : Config} {r : Except Stop Value} : c.Next c₁ → Ends c₁ r c' → Ends c r c'

theorem Next.keeps {c c' : Config} (h : c.Next c') :
    c'.constants = c.constants ∧ c'.limits = c.limits ∧ c'.tracing = c.tracing ∧
      c'.globals.size = c.globals.size := by
  have hk := c.step_keeps
  rwa [h] at hk

theorem keeps_of_steps {c c' : Config} (h : Relation.ReflTransGen Next c c') :
    c'.constants = c.constants ∧ c'.limits = c.limits ∧ c'.tracing = c.tracing ∧
      c'.globals.size = c.globals.size := by
  induction h with
  | refl => exact ⟨rfl, rfl, rfl, rfl⟩
  | tail _ hn ih =>
    obtain ⟨h₁, h₂, h₃, h₄⟩ := hn.keeps
    exact ⟨h₁.trans ih.1, h₂.trans ih.2.1, h₃.trans ih.2.2.1, h₄.trans ih.2.2.2⟩

theorem Next.code_ne_nil {c c' : Config} (h : c.Next c') : c.current.code ≠ [] := by
  intro hc
  simp [Next, step, hc] at h

theorem Ends.of_steps {c c₁ c' : Config} {r : Except Stop Value}
    (hs : Relation.ReflTransGen Next c c₁) (h : Ends c₁ r c') : Ends c r c' := by
  induction hs using Relation.ReflTransGen.head_induction_on with
  | refl => exact h
  | head hn _ ih => exact .next hn ih

end Config

namespace Machine

/-- A machine goes over to another in one step. -/
def Next (m m' : Machine) : Prop := m.finished = false ∧ MachineM.step m = .ok () m'

theorem run?_of_finished {m : Machine} (h : m.finished = true) (fuel : Nat) :
    m.run? fuel = some (.ok m.lastPopped, m) := by
  unfold run?
  rw [if_pos h]

theorem Next.run? {m m' : Machine} (h : m.Next m') (fuel : Nat) :
    m.run? (fuel + 1) = m'.run? fuel := by
  rw [Machine.run?, h.1, h.2]
  rfl

theorem run?_of_stop {m m' : Machine} {s : Stop} (hf : m.finished = false)
    (h : MachineM.step m = .error s m') (fuel : Nat) :
    m.run? (fuel + 1) = some (.error (m'.failure s), m') := by
  rw [Machine.run?, hf, h]
  rfl

/-- Without fuel, only a run that is over has an end. -/
theorem exists_fuel_of_run? {m : Machine} (hf : m.finished = false) {fuel : Nat}
    {done : Except Failure Value × Machine} (h : m.run? fuel = some done) :
    ∃ rest, fuel = rest + 1 := by
  cases fuel with
  | zero =>
    rw [run?, hf] at h
    cases h
  | succ rest => exact ⟨rest, rfl⟩

/-- A run is over, fails in its first step, or goes on as the run of the next machine. -/
@[elab_as_elim]
theorem run?_induction
    {motive : ∀ (fuel : Nat) (m : Machine) (r : Except Failure Value) (m' : Machine),
      m.run? fuel = some (r, m') → Prop}
    (finished : ∀ {fuel : Nat} {m : Machine} (hf : m.finished = true),
      motive fuel m (.ok m.lastPopped) m (run?_of_finished hf fuel))
    (stopped : ∀ {fuel : Nat} {m m' : Machine} {s : Stop} (hf : m.finished = false)
      (hs : MachineM.step m = .error s m'),
      motive (fuel + 1) m (.error (m'.failure s)) m' (run?_of_stop hf hs fuel))
    (next : ∀ {fuel : Nat} {m m₁ m' : Machine} {r : Except Failure Value} (hn : m.Next m₁)
      (h : m₁.run? fuel = some (r, m')), motive fuel m₁ r m' h →
      motive (fuel + 1) m r m' ((hn.run? fuel).trans h))
    {fuel : Nat} {m : Machine} {r : Except Failure Value} {m' : Machine}
    (h : m.run? fuel = some (r, m')) : motive fuel m r m' h := by
  induction fuel using Nat.strongRecOn generalizing m with
  | ind fuel ih =>
    cases hf : m.finished with
    | true =>
      cases (run?_of_finished hf fuel).symm.trans h
      exact finished hf
    | false =>
      obtain ⟨rest, rfl⟩ := exists_fuel_of_run? hf h
      cases hs : MachineM.step m with
      | ok u m₁ =>
        have hn : m.Next m₁ := ⟨hf, hs⟩
        have h₁ : m₁.run? rest = some (r, m') := (hn.run? rest).symm.trans h
        exact next hn h₁ (ih rest (Nat.lt_succ_self rest) h₁)
      | error s m₁ =>
        cases (run?_of_stop hf hs rest).symm.trans h
        exact stopped hf hs

/-- More fuel does not change the end of a run. -/
theorem run?_unique {m : Machine} {f g : Nat} {r r' : Except Failure Value × Machine}
    (hf : m.run? f = some r) (hg : m.run? g = some r') : r = r' := by
  obtain ⟨r, m'⟩ := r
  induction hf using run?_induction generalizing g with
  | finished hf => exact Option.some.inj ((run?_of_finished hf g).symm.trans hg)
  | stopped hf hs =>
    obtain ⟨g, rfl⟩ := exists_fuel_of_run? hf hg
    exact Option.some.inj ((run?_of_stop hf hs g).symm.trans hg)
  | next hn _ ih =>
    obtain ⟨g, rfl⟩ := exists_fuel_of_run? hn.1 hg
    exact ih ((hn.run? g).symm.trans hg)

end Machine

/-- The run of a machine fails at a step limit, or ends like that of its configuration. -/
theorem Config.Ends.run? {c c' : Config} {r : Except Stop Value} (h : c.Ends r c') {m : Machine}
    (hr : Represents m c) :
    ∃ fuel m', (∃ max, c.limits.maxSteps = some max ∧
        m.run? fuel = some (.error (m'.failure (.fault (.stepLimit max))), m')) ∨
      Represents m' c' ∧ m.run? fuel = some (r.mapError m'.failure, m') := by
  induction h generalizing m with
  | done hc =>
    refine ⟨0, m, .inr ⟨hr, ?_⟩⟩
    rw [Machine.run?_of_finished (hr.finished_iff.mpr hc), hr.lastPopped]
    rfl
  | @stop c c' s hs =>
    have hc : c.current.code ≠ [] := fun hc => by simp [Config.step, hc] at hs
    have hfin : m.finished = false := by
      rw [← Bool.not_eq_true, hr.finished_iff]
      exact hc
    obtain ⟨max, m', hmax, he, -⟩ | hcov := hr.step hc
    · exact ⟨1, m', .inl ⟨max, hmax, Machine.run?_of_stop hfin he 0⟩⟩
    · rw [hs] at hcov
      obtain ⟨m', he, hr'⟩ := hcov
      exact ⟨1, m', .inr ⟨hr', Machine.run?_of_stop hfin he 0⟩⟩
  | next hn _ ih =>
    have hc := hn.code_ne_nil
    have hfin : m.finished = false := by
      rw [← Bool.not_eq_true, hr.finished_iff]
      exact hc
    obtain ⟨max, m', hmax, he, -⟩ | hcov := hr.step hc
    · exact ⟨1, m', .inl ⟨max, hmax, Machine.run?_of_stop hfin he 0⟩⟩
    · rw [hn] at hcov
      obtain ⟨m₁, he, hr₁⟩ := hcov
      obtain ⟨fuel, m', hm⟩ := ih hr₁
      refine ⟨fuel + 1, m', ?_⟩
      rwa [Machine.Next.run? ⟨hfin, he⟩, ← hn.keeps.2.1]

end ClosureVM
