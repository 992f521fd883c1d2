import ClosureVM.Proofs.Machine.Frames

/-! How a step begins, whatever code it finds: what it checks before it executes an instruction, and
in which machine it executes it then. -/
namespace ClosureVM

namespace Machine

/-- The step limit does not allow a further step. -/
def isRefused (m : Machine) : Bool :=
  match m.limits.maxSteps with
  | none => false
  | some max => max < (m.steps + 1 : Nat)

/-- At the instruction where the innermost call stands, with the step counted. -/
def counted (m : Machine) : Machine :=
  { m with ip := m.frame.ip, steps := if m.limits.maxSteps.isSome then m.steps + 1 else m.steps }

def goTo (m : Machine) (ip : Nat) : Machine := { m with frame := { m.frame with ip } }

/-- The byte of an opcode, and that opcode, where the innermost call stands. -/
def StandsAt (m : Machine) (byte : UInt8) (op : Option Opcode) : Prop :=
  m.frame.code[m.frame.ip]? = some byte ∧ Opcode.ofByte? byte = op

/-- All that a step can come to: it finds no byte, is refused, finds no opcode or too few operands,
or executes an instruction. -/
inductive Begins (m : Machine) : EStateM.Result Stop Machine Unit → Prop
  | absent : m.frame.code[m.frame.ip]? = none →
    Begins m (.error .outOfRange { m with ip := m.frame.ip })
  | refused {byte : UInt8} {max : Int} : m.frame.code[m.frame.ip]? = some byte →
    m.isRefused = true → Begins m (.error (.fault (.stepLimit max)) m.counted)
  | undefined {byte : UInt8} : m.StandsAt byte none → m.isRefused = false →
    Begins m (.error (.malformed (.undefinedOpcode byte.toNat)) m.counted)
  | truncated {byte : UInt8} {op : Opcode} : m.StandsAt byte op → m.isRefused = false →
    MachineM.operandsAt? m.frame.code op m.frame.ip = none →
    Begins m (.error .outOfRange (m.counted.traced (m.frame.code.instructionAt op m.frame.ip)))
  | executes {byte : UInt8} {op : Opcode} {a b : Nat} : m.StandsAt byte op → m.isRefused = false →
    MachineM.operandsAt? m.frame.code op m.frame.ip = some (a, b) →
    Begins m (MachineM.execute op a b
      ((m.counted.traced (m.frame.code.instructionAt op m.frame.ip)).goTo
        (m.frame.ip + MachineM.stride op)))

/-- A line of a trace is output and nothing else. -/
theorem exists_traced_eq (m : Machine) (i : Instruction) :
    ∃ output, m.traced i = { m with output } := by
  unfold traced
  split
  · exact ⟨_, rfl⟩
  · exact ⟨m.output, rfl⟩

end Machine

namespace MachineM

variable {m : Machine}

private theorem countStep_of_refused (h : m.isRefused = true) : ∃ max,
    countStep { m with ip := m.frame.ip } = .error (.fault (.stepLimit max)) m.counted := by
  unfold Machine.isRefused at h
  cases hmax : m.limits.maxSteps with
  | none => simp [hmax] at h
  | some max =>
    have hlt : max < (m.steps + 1 : Nat) := by simpa [hmax] using h
    refine ⟨max, (countStep_of_lt (m := { m with ip := m.frame.ip }) hmax hlt).trans ?_⟩
    simp [Machine.counted, hmax]

private theorem countStep_of_allowed (h : m.isRefused = false) :
    countStep { m with ip := m.frame.ip } = .ok () m.counted := by
  unfold Machine.isRefused at h
  cases hmax : m.limits.maxSteps with
  | none =>
    refine (countStep_of_none (m := { m with ip := m.frame.ip }) hmax).trans ?_
    simp [Machine.counted, hmax]
  | some max =>
    have hle : ¬ max < (m.steps + 1 : Nat) := by simpa [hmax] using h
    refine (countStep_of_le (m := { m with ip := m.frame.ip }) hmax hle).trans ?_
    simp [Machine.counted, hmax]

theorem step_begins (m : Machine) : m.Begins (step m) := by
  cases hb : m.frame.code[m.frame.ip]? with
  | none =>
    rw [step_of_none hb]
    exact .absent hb
  | some byte =>
    cases hr : m.isRefused with
    | true =>
      obtain ⟨max, hc⟩ := countStep_of_refused hr
      have hs : step m = .error (.fault (.stepLimit max)) m.counted := by
        simp [step_eq_lookup, hb, hc]
      rw [hs]
      exact .refused hb hr
    | false =>
      obtain ⟨steps, hcounted⟩ : ∃ steps, m.counted = { m with ip := m.frame.ip, steps } :=
        ⟨_, rfl⟩
      have hc := countStep_of_allowed hr
      rw [hcounted] at hc
      cases hop : Opcode.ofByte? byte with
      | none =>
        have hs : step m =
            .error (.malformed (.undefinedOpcode byte.toNat)) m.counted := by
          rw [hcounted]
          simp [step_eq_lookup, hb, hc, opcodeOf, hop]
        rw [hs]
        exact .undefined ⟨hb, hop⟩ hr
      | some op =>
        cases ho : operandsAt? m.frame.code op m.frame.ip with
        | none =>
          have hs : step m = .error .outOfRange
              (m.counted.traced (m.frame.code.instructionAt op m.frame.ip)) := by
            rw [hcounted]
            simp only [step_eq_lookup, EStateM.bind_apply, EStateM.get_apply, EStateM.modify_apply,
              EStateM.pure_apply, hb, need, hc, opcodeOf, hop, ho, jumpTo, Machine.traced]
            cases m.tracing <;> rfl
          rw [hs]
          exact .truncated ⟨hb, hop⟩ hr ho
        | some operands =>
          have hs : step m = execute op operands.1 operands.2
              ((m.counted.traced (m.frame.code.instructionAt op m.frame.ip)).goTo
                (m.frame.ip + stride op)) := by
            rw [hcounted]
            simp only [step_eq_lookup, EStateM.bind_apply, EStateM.get_apply, EStateM.modify_apply,
              EStateM.pure_apply, hb, need, hc, opcodeOf, hop, ho, jumpTo, Machine.traced]
            cases m.tracing <;> rfl
          rw [hs]
          exact .executes ⟨hb, hop⟩ hr ho

end MachineM

end ClosureVM
