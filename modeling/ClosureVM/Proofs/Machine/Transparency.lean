import ClosureVM.Proofs.Machine.Beginning
import ClosureVM.Proofs.Machine.Tracing
import ClosureVM.Proofs.Session.SingleAssignment

/-! A machine that is traced does what it does without: leaving out the lines of the trace commutes
with every computation. The trace has one line for each instruction that was started. -/
namespace ClosureVM

namespace Output

def isPuts : Output → Bool
  | puts _ => true
  | trace _ => false

def trace? : Output → Option String
  | puts _ => none
  | trace text => some text

end Output

namespace Machine

/-- The machine as it would be without a trace. -/
def untraced (m : Machine) : Machine :=
  { m with tracing := false, output := m.output.filter Output.isPuts }

/-- The lines of the trace so far. -/
def traceLines (m : Machine) : List String := m.output.toList.filterMap Output.trace?

/-- The line for the instruction where the innermost call stands. There is none if the step limit
does not allow the instruction, or if it has no defined opcode. -/
def traceLine? (m : Machine) : Option String :=
  if m.isRefused then none
  else (m.frame.code[m.frame.ip]?.bind Opcode.ofByte?).map fun op =>
    MachineM.traceText m.frame.ip (m.frame.code.instructionAt op m.frame.ip) m.sp

/-- The end of a computation, without a trace. -/
def untracedEnd {α : Type} : EStateM.Result Stop Machine α → EStateM.Result Stop Machine α
  | .ok a m => .ok a m.untraced
  | .error s m => .error s m.untraced

private theorem untraced_push_trace (m : Machine) (text : String) :
    untraced { m with output := m.output.push (.trace text) } = m.untraced := by
  simp [untraced, Output.isPuts]

end Machine

/-- It makes no difference whether the trace is left out before the computation or after it. -/
structure Transparent {α : Type} (x : MachineM α) : Prop where
  commutes : ∀ m, x m.untraced = Machine.untracedEnd (x m)

namespace Transparent

variable {α β : Type}

theorem bind {x : MachineM α} {f : α → MachineM β} (hx : Transparent x)
    (hf : ∀ a, Transparent (f a)) : Transparent (x >>= f) where
  commutes m := by
    rw [EStateM.bind_apply, EStateM.bind_apply, hx.commutes]
    cases x m with
    | ok a m' => exact (hf a).commutes m'
    | error s m' => rfl

theorem pure (a : α) : Transparent (Pure.pure a : MachineM α) := ⟨fun _ => rfl⟩

theorem throw (s : Stop) : Transparent (throwThe Stop s : MachineM α) := ⟨fun _ => rfl⟩

theorem fault_bind {f : Fault} {k : α → MachineM β} : Transparent (MachineM.fault f >>= k) :=
  ⟨fun _ => rfl⟩

/-- What is read from a machine has nothing to do with its trace. -/
theorem get {k : Machine → MachineM β} (hk : ∀ m, k m.untraced = k m)
    (h : ∀ m, Transparent (k m)) : Transparent (MonadState.get >>= k) where
  commutes m := by
    change k m.untraced m.untraced = Machine.untracedEnd (k m m)
    rw [hk, (h m).commutes]

theorem modify {f : Machine → Machine} (hf : ∀ m, f m.untraced = (f m).untraced) :
    Transparent (modifyThe Machine f : MachineM PUnit) where
  commutes m := by
    change EStateM.Result.ok _ (f m.untraced) = EStateM.Result.ok _ (f m).untraced
    rw [hf]

theorem need (o : Option α) : Transparent (MachineM.need o) := by
  cases o with
  | none => exact throw _
  | some a => exact pure a

theorem check (r : Except Fault α) : Transparent (MachineM.check r) := by
  cases r with
  | error f => exact throw _
  | ok a => exact pure a

theorem ofExcept (r : Except Stop α) : Transparent (MachineM.ofExcept r) := by
  cases r with
  | error s => exact throw s
  | ok a => exact pure a

theorem allocate : Transparent MachineM.allocate := ⟨fun _ => rfl⟩

theorem puts (text : String) : Transparent (MachineM.write (.puts text)) :=
  modify fun m => by
    have hpush : (m.output.push (.puts text)).filter Output.isPuts =
        (m.output.filter Output.isPuts).push (.puts text) :=
      Array.filter_push_of_pos rfl (Array.size_push _)
    simp only [Machine.untraced, hpush]

theorem sp : Transparent MachineM.sp := get (fun _ => rfl) fun _ => pure _

theorem setSp (sp : Int) : Transparent (MachineM.setSp sp) := modify fun _ => rfl

theorem jumpTo (target : Nat) : Transparent (MachineM.jumpTo target) := modify fun _ => rfl

theorem slot (i : Int) : Transparent (MachineM.slot i) := get (fun _ => rfl) fun _ => need _

theorem setSlot (i : Int) (v : Value) : Transparent (MachineM.setSlot i v) :=
  get (fun _ => rfl) fun _ => (need _).bind fun _ => modify fun _ => rfl

theorem push (v : Value) : Transparent (MachineM.push v) := by
  refine sp.bind fun sp => get (fun _ => rfl) fun m => ?_
  split
  · exact fault_bind
  · exact (setSlot sp v).bind fun _ => setSp _

theorem pop : Transparent MachineM.pop := by
  refine sp.bind fun sp => ?_
  split
  · exact fault_bind
  · exact (setSp _).bind fun _ => slot _

theorem top (n : Int) : Transparent (MachineM.top n) :=
  sp.bind fun _ => get (fun _ => rfl) fun _ => pure _

theorem popMany (n : Nat) : Transparent (MachineM.popMany n) :=
  (top _).bind fun _ => sp.bind fun _ => (setSp _).bind fun _ => pure _

theorem clear (i : Int) (n : Nat) : Transparent (MachineM.clear i n) := by
  induction n generalizing i with
  | zero => exact pure _
  | succ n ih => exact (setSlot _ _).bind fun _ => ih _

theorem forM {f : α → MachineM PUnit} (hf : ∀ a, Transparent (f a)) (l : List α) :
    Transparent (l.forM f) := by
  induction l with
  | nil => exact pure _
  | cons a l ih => exact (hf a).bind fun _ => ih

theorem pushFrame (fr : Frame) : Transparent (MachineM.pushFrame fr) where
  commutes m := by
    have hdepth : m.untraced.depth = m.depth := rfl
    have hlimits : m.untraced.limits = m.limits := rfl
    unfold MachineM.pushFrame
    rw [EStateM.bind_ok (EStateM.get_apply m), EStateM.bind_ok (EStateM.get_apply m.untraced),
      hdepth, hlimits]
    split <;> rfl

theorem popFrame : Transparent MachineM.popFrame where
  commutes m := by
    have hcallers : m.untraced.callers = m.callers := rfl
    unfold MachineM.popFrame
    rw [EStateM.bind_ok (EStateM.get_apply m), EStateM.bind_ok (EStateM.get_apply m.untraced),
      hcallers]
    cases m.callers <;> rfl

theorem callClosure (id : Nat) (proto : Prototype) (free : List Value) (n : Int) :
    Transparent (MachineM.callClosure id proto free n) := by
  unfold MachineM.callClosure
  split
  · exact fault_bind
  refine sp.bind fun sp => get (fun _ => rfl) fun m => ?_
  split
  · exact fault_bind
  · exact (pushFrame _).bind fun _ => (clear _ _).bind fun _ => setSp _

theorem callBuiltin (b : Builtin) (n : Int) : Transparent (MachineM.callBuiltin b n) := by
  refine (top _).bind fun args => allocate.bind fun id => (check _).bind fun reply => ?_
  refine (forM (fun text => puts text) _).bind fun _ => ?_
  exact sp.bind fun _ => (setSp _).bind fun _ => push _

theorem call (n : Int) : Transparent (MachineM.call n) := by
  refine sp.bind fun sp => (slot _).bind fun v => ?_
  cases v with
  | closure id proto free => exact callClosure id proto free n
  | builtin b => exact callBuiltin b n
  | _ => exact throw _

theorem leave (v : Value) : Transparent (MachineM.leave v) :=
  popFrame.bind fun _ => (setSp _).bind fun _ => push _

theorem readEntries (i : Int) (entries : Entries) (n : Nat) :
    Transparent (MachineM.readEntries i entries n) := by
  induction n generalizing i entries with
  | zero => exact pure _
  | succ n ih =>
    exact (slot _).bind fun _ => (slot _).bind fun _ => (check _).bind fun _ => ih _ _

theorem makeArray (n : Nat) : Transparent (MachineM.makeArray n) :=
  (popMany n).bind fun _ => allocate.bind fun _ => push _

theorem makeHash (n : Nat) : Transparent (MachineM.makeHash n) :=
  sp.bind fun _ => (readEntries _ _ _).bind fun _ => (setSp _).bind fun _ =>
    allocate.bind fun _ => push _

theorem makeClosure (a n : Nat) : Transparent (MachineM.makeClosure a n) := by
  refine get (fun _ => rfl) fun m => (need _).bind fun v => ?_
  cases v with
  | function proto => exact (popMany n).bind fun _ => allocate.bind fun _ => push _
  | _ => exact throw _

theorem execute (op : Opcode) (a b : Nat) : Transparent (MachineM.execute op a b) := by
  cases op with
  | constant | getGlobal | getFree =>
    exact get (fun _ => rfl) fun _ => (need _).bind fun _ => push _
  | add | sub | mul | div =>
    exact pop.bind fun _ => pop.bind fun _ => (ofExcept _).bind fun _ => push _
  | equal | notEqual | greaterThan =>
    exact pop.bind fun _ => pop.bind fun _ => (check _).bind fun _ => push _
  | pop =>
    refine pop.bind fun v => modify fun m => ?_
    have hcallers : m.untraced.callers = m.callers := rfl
    rw [hcallers]
    split <;> rfl
  | pushTrue | pushFalse | pushNull => exact push _
  | bang => exact pop.bind fun _ => push _
  | minus => exact pop.bind fun _ => (ofExcept _).bind fun _ => push _
  | jump => exact jumpTo a
  | jumpNotTruthy =>
    refine pop.bind fun v => ?_
    split
    · exact pure _
    · exact jumpTo a
  | setGlobal =>
    refine pop.bind fun v => get (fun _ => rfl) fun m => ?_
    split
    · exact ⟨fun _ => rfl⟩
    · exact modify fun _ => rfl
  | setLocal => exact pop.bind fun _ => get (fun _ => rfl) fun _ => setSlot _ _
  | getLocal => exact get (fun _ => rfl) fun _ => (slot _).bind fun _ => push _
  | getBuiltin =>
    unfold MachineM.execute
    dsimp only
    split
    · exact push _
    · exact throw _
  | currentClosure => exact get (fun _ => rfl) fun _ => push _
  | array => exact makeArray a
  | hash => exact makeHash a
  | index => exact pop.bind fun _ => pop.bind fun _ => (check _).bind fun _ => push _
  | call => exact call a
  | returnValue => exact pop.bind fun _ => leave _
  | returnNull => exact leave _
  | closure => exact makeClosure a b

theorem countStep : Transparent MachineM.countStep := by
  refine get (fun _ => rfl) fun m => ?_
  split
  · refine bind (modify ?_) fun _ => get (fun _ => rfl) fun m => ?_
    · exact fun _ => rfl
    · split
      · exact throw _
      · exact pure _
  · exact pure _

/-- Only here a computation depends on the machine being traced. -/
theorem traced {rest : MachineM β} (text : Int → String) (h : Transparent rest) :
    Transparent (MonadState.get >>= fun m => if m.tracing = true then
      MachineM.sp >>= fun sp => MachineM.write (.trace (text sp)) >>= fun _ => rest else rest) where
  commutes m := by
    change rest m.untraced = Machine.untracedEnd ((if m.tracing = true then
      MachineM.sp >>= fun sp => MachineM.write (.trace (text sp)) >>= fun _ => rest else rest) m)
    split
    · change _ = Machine.untracedEnd (rest { m with output := m.output.push (.trace (text m.sp)) })
      rw [← h.commutes, Machine.untraced_push_trace]
    · exact h.commutes m

theorem opcodeOf (byte : UInt8) : Transparent (MachineM.opcodeOf byte) := by
  unfold MachineM.opcodeOf
  split
  · exact pure _
  · exact throw _

theorem step : Transparent MachineM.step := by
  rw [MachineM.step_eq_lookup]
  refine get (fun _ => rfl) fun m => get (fun _ => rfl) fun m₁ => bind (modify ?_) fun _ => ?_
  · exact fun _ => rfl
  refine (need _).bind fun byte => countStep.bind fun _ => (opcodeOf byte).bind fun op => ?_
  refine traced _ ((need _).bind fun operands => ?_)
  exact (jumpTo _).bind fun _ => execute _ _ _

end Transparent

namespace Machine

variable {m m' : Machine}

/-- A run without a trace takes the same steps to the same end. -/
theorem run?_untraced (m : Machine) (fuel : Nat) :
    m.untraced.run? fuel = (m.run? fuel).map fun done => (done.1, done.2.untraced) := by
  have hfinished : m.untraced.finished = m.finished := rfl
  induction fuel generalizing m with
  | zero =>
    rw [run?, run?, hfinished]
    cases m.finished <;> rfl
  | succ fuel ih =>
    rw [run?, run?, hfinished, Transparent.step.commutes m]
    cases m.finished with
    | true => rfl
    | false =>
      cases MachineM.step m with
      | ok _ m' => exact ih m' rfl
      | error stop m' => cases stop <;> rfl

/-! ### The lines of a trace -/

/-- Instructions add nothing to a trace; the steps do that. -/
theorem Changes.traceLines {Q : Prototype → Prop} (h : m.Changes Q m') :
    m'.tracing = m.tracing ∧ m'.traceLines = m.traceLines := by
  refine h.preserve (I := fun m₁ => m₁.tracing = m.tracing ∧ m₁.traceLines = m.traceLines)
    (fun m₁ m₂ hc hm₁ => ?_) ⟨rfl, rfl⟩
  cases hc with
  | puts text =>
    have hpush : Machine.traceLines { m₁ with output := m₁.output.push (.puts text) } =
        m₁.traceLines := by
      simp [Machine.traceLines, Output.trace?]
    exact ⟨hm₁.1, hpush.trans hm₁.2⟩
  | _ => exact hm₁

private theorem traceLines_of_execute (m : Machine) (op : Opcode) (a b : Nat) :
    (MachineM.final (MachineM.execute op a b) m).tracing = m.tracing ∧
      (MachineM.final (MachineM.execute op a b) m).traceLines = m.traceLines := by
  obtain ⟨m₁, hc, hx | ⟨-, -, hx⟩⟩ := MachineM.final_execute m.holds_true op a b
  · rw [hx]
    exact hc.traceLines
  · rw [hx]
    exact hc.traceLines

theorem traceLines_of_traced (h : m.tracing = true) (i : Instruction) :
    (m.traced i).tracing = true ∧
      (m.traced i).traceLines = m.traceLines ++ [MachineM.traceText m.frame.ip i m.sp] := by
  rw [traced, if_pos h]
  exact ⟨h, by simp [traceLines, Output.trace?]⟩

theorem traceLine?_of_standsAt {byte : UInt8} {op : Option Opcode} (h : m.StandsAt byte op)
    (hr : m.isRefused = false) :
    m.traceLine? = op.map fun op =>
      MachineM.traceText m.frame.ip (m.frame.code.instructionAt op m.frame.ip) m.sp := by
  simp [traceLine?, hr, h.1, h.2]

/-- A step adds the line of its instruction, also when it fails in it. -/
theorem traceLines_of_step (h : m.tracing = true) :
    (MachineM.final MachineM.step m).tracing = true ∧
      (MachineM.final MachineM.step m).traceLines = m.traceLines ++ m.traceLine?.toList := by
  have hbegins := MachineM.step_begins m
  generalize hs : MachineM.step m = r at hbegins
  cases hbegins with
  | absent hnone =>
    have hline : m.traceLine? = none := by simp [traceLine?, hnone]
    rw [MachineM.final_of_error hs, hline, Option.toList_none, List.append_nil]
    exact ⟨h, rfl⟩
  | refused _ hr =>
    have hline : m.traceLine? = none := by simp [traceLine?, hr]
    rw [MachineM.final_of_error hs, hline, Option.toList_none, List.append_nil]
    exact ⟨h, rfl⟩
  | undefined hat hr =>
    have hline := traceLine?_of_standsAt hat hr
    rw [MachineM.final_of_error hs, hline, Option.map_none, Option.toList_none, List.append_nil]
    exact ⟨h, rfl⟩
  | truncated hat hr _ =>
    have hline := traceLine?_of_standsAt hat hr
    rw [MachineM.final_of_error hs, hline, Option.map_some, Option.toList_some]
    exact traceLines_of_traced (m := m.counted) h _
  | @executes _ op a b hat hr _ =>
    have hline := traceLine?_of_standsAt hat hr
    have htraced := traceLines_of_traced (m := m.counted) h
      (m.frame.code.instructionAt op m.frame.ip)
    rw [MachineM.final_congr hs, hline, Option.map_some, Option.toList_some]
    obtain ⟨htracing, hlines⟩ := traceLines_of_execute ((m.counted.traced
      (m.frame.code.instructionAt op m.frame.ip)).goTo (m.frame.ip + MachineM.stride op)) op a b
    exact ⟨htracing.trans htraced.1, hlines.trans htraced.2⟩

/-- The trace of a run has the lines of the machines on its way. -/
theorem traceLines_of_run? {fuel : Nat} {done : Except Failure Value × Machine}
    (h : m.tracing = true) (hr : m.run? fuel = some done) :
    done.2.traceLines = m.traceLines ++ (m.trail fuel).filterMap traceLine? := by
  obtain ⟨r, m'⟩ := done
  induction hr using run?_induction with
  | finished hf => simp [trail_of_finished hf]
  | @stopped fuel m m₁ s hf hs =>
    have hstep := traceLines_of_step h
    rw [MachineM.final_of_error hs] at hstep
    rw [trail_of_stop hf hs, hstep.2, List.filterMap_cons]
    cases m.traceLine? <;> rfl
  | @next fuel m m₁ m' r hn _ ih =>
    have hstep := traceLines_of_step h
    rw [MachineM.final_of_ok hn.2] at hstep
    rw [hn.trail, ih hstep.1, hstep.2, List.append_assoc, List.filterMap_cons]
    cases m.traceLine? <;> rfl

/-- Whatever the code, a traced run and a run without a trace are over after the same number of
steps, if they are over at all. They have the same result or the same failure, and the machines that
they leave differ in the trace only. Its lines are those of the instructions that were started: one
for each that the step limit allowed and that has a defined opcode. -/
theorem tracing_transparent (code : Code) (constants : Array Value) (globals : Slots)
    (limits : Limits) (fresh fuel : Nat) :
    let plain := new code constants globals limits false fresh
    let traced := new code constants globals limits true fresh
    plain.run? fuel = (traced.run? fuel).map (fun done => (done.1, done.2.untraced)) ∧
      ∀ done, traced.run? fuel = some done →
        done.2.traceLines = (traced.trail fuel).filterMap traceLine? := by
  intro plain traced
  constructor
  · exact run?_untraced traced fuel
  · intro done hdone
    exact traceLines_of_run? (m := traced) rfl hdone

/-- A text is written, then there is a byte that is no opcode. -/
theorem tracing_transparent_puts :
    let code : Code := #[Opcode.getBuiltin.code, 1, Opcode.constant.code, 0, 0, Opcode.call.code, 1,
      Opcode.pop.code, 255]
    let plain := new code #[.str "a"] { size := 0 }
    let traced := new code #[.str "a"] { size := 0 } {} true
    ∃ done, traced.run? 5 = some done ∧ plain.run? 5 = some (done.1, done.2.untraced) ∧
      done.2.traceLines = ["TRACE ip=0000 OpGetBuiltin 1 stack=0",
        "TRACE ip=0002 OpConstant 0 stack=1", "TRACE ip=0005 OpCall 1 stack=2",
        "TRACE ip=0007 OpPop stack=1"] ∧
      done.2.untraced.output = #[.puts "a"] := by
  intro code plain traced
  have hover : (traced.run? 5).isSome = true := by decide +kernel
  have hputs : (traced.run? 5).map (fun done => done.2.untraced.output) = some #[.puts "a"] := by
    decide +kernel
  have htrail : (traced.trail 5).filterMap traceLine? =
      ["TRACE ip=0000 OpGetBuiltin 1 stack=0", "TRACE ip=0002 OpConstant 0 stack=1",
        "TRACE ip=0005 OpCall 1 stack=2", "TRACE ip=0007 OpPop stack=1"] := by
    decide +kernel
  obtain ⟨done, hdone⟩ := Option.isSome_iff_exists.mp hover
  obtain ⟨hplain, hlines⟩ := tracing_transparent code #[.str "a"] { size := 0 } {} (mainId + 1) 5
  rw [hdone] at hputs
  refine ⟨done, hdone, ?_, (hlines done hdone).trans htrail, Option.some.inj hputs⟩
  exact hplain.trans (congrArg _ hdone)

end Machine

end ClosureVM
