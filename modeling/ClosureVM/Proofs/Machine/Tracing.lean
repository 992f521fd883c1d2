import ClosureVM.Proofs.Code.Alignment
import ClosureVM.Proofs.Machine.Changes

/-! A machine executes what the listings of its code show, and its trace says so. -/
namespace ClosureVM

namespace MachineM

/-- The machine that a computation leaves behind, whether it succeeds or not. -/
def final {α : Type} (x : MachineM α) (m : Machine) : Machine :=
  match x m with
  | .ok _ m' | .error _ m' => m'

variable {α : Type} {x : MachineM α} {m m' : Machine}

theorem final_of_ok {a : α} (h : x m = .ok a m') : final x m = m' := by
  rw [final, h]

theorem final_of_error {s : Stop} (h : x m = .error s m') : final x m = m' := by
  rw [final, h]

theorem final_congr {y : MachineM α} {m₁ : Machine} (h : x m = y m₁) : final x m = final y m₁ := by
  rw [final, final, h]

/-- An instruction leaves the machine changed as instructions may change it, but for a jump. -/
theorem final_execute {Q : Prototype → Prop} (h : m.Holds Q) (op : Opcode) (a b : Nat) :
    ∃ m₁, m.Changes Q m₁ ∧ (final (execute op a b) m = m₁ ∨
      op.isPlain = false ∧ m₁.frame = m.frame ∧
        final (execute op a b) m = { m₁ with frame := { m₁.frame with ip := a } }) := by
  obtain ⟨m₁, hc, hx | ⟨hp, hframe, -, hx⟩ | ⟨s, -, hx⟩⟩ := execute_changes h op a b
  · exact ⟨m₁, hc, .inl (final_of_ok hx)⟩
  · exact ⟨m₁, hc, .inr ⟨hp, hframe, final_of_ok hx⟩⟩
  · exact ⟨m₁, hc, .inl (final_of_error hx)⟩

end MachineM

namespace Machine

/-- All code in a machine is regular, and every call stands at a boundary of its code. -/
structure Aligned (m : Machine) : Prop where
  holds : m.Holds fun proto => proto.code.Regular
  frames : ∀ fr ∈ m.frame :: m.callers, fr.ip ∈ fr.code.boundaries

variable {Q : Prototype → Prop} {m m' : Machine}

theorem Change.aligned (h : m.Change (fun proto => proto.code.Regular) m') (hm : m.Aligned) :
    m'.Aligned := by
  refine ⟨h.holds hm.holds, ?_⟩
  cases h with
  | sp | slot | global | lastPopped | fresh | puts => exact hm.frames
  | @enter fr hfr hip _ =>
    refine List.forall_mem_cons.mpr ⟨?_, hm.frames⟩
    cases hfr with
    | closure hq _ =>
      rw [hip]
      exact Code.zero_mem_boundaries hq.reads
  | leave hc =>
    have hframes := (List.forall_mem_cons.mp hm.frames).2
    rwa [hc] at hframes

theorem Changes.aligned (h : m.Changes (fun proto => proto.code.Regular) m') (hm : m.Aligned) :
    m'.Aligned :=
  h.preserve (fun _ _ hc => hc.aligned) hm

/-- Only a step itself adds to a trace. -/
theorem Changes.trace_mem (h : m.Changes Q m') {text : String} (ht : .trace text ∈ m'.output) :
    .trace text ∈ m.output := by
  refine h.preserve (I := fun m₁ => .trace text ∈ m₁.output → .trace text ∈ m.output) ?_ id ht
  intro m₁ m₂ hc hm₁ ht
  cases hc with
  | puts written =>
    obtain ht | ht := Array.mem_push.mp ht
    · exact hm₁ ht
    · cases ht
  | _ => exact hm₁ ht

theorem Aligned.moved (h : m.Aligned) (ip steps : Nat) (output : Array Output) {target : Nat}
    (ht : target ∈ m.frame.code.boundaries) :
    Aligned { m with ip, steps, output, frame := { m.frame with ip := target } } where
  holds := h.holds.moved ip steps output target
  frames := List.forall_mem_cons.mpr ⟨ht, (List.forall_mem_cons.mp h.frames).2⟩

theorem Aligned.current (h : m.Aligned) : m.frame.ip ∈ m.frame.code.boundaries :=
  h.frames m.frame List.mem_cons_self

/-- Whatever becomes of an instruction, all calls stand at boundaries then. -/
theorem Aligned.execute (h : m.Aligned) (op : Opcode) (a b : Nat)
    (ha : op.isPlain = false → a ∈ m.frame.code.boundaries) :
    (MachineM.final (MachineM.execute op a b) m).Aligned := by
  obtain ⟨m₁, hc, hx | ⟨hp, hframe, hx⟩⟩ := MachineM.final_execute h.holds op a b
  · rw [hx]
    exact hc.aligned h
  · rw [hx]
    refine (hc.aligned h).moved m₁.ip m₁.steps m₁.output ?_
    rw [hframe]
    exact ha hp

private theorem trace_mem_of_execute (h : m.Holds Q) {op : Opcode} {a b : Nat} {text : String}
    (ht : .trace text ∈ (MachineM.final (MachineM.execute op a b) m).output) :
    .trace text ∈ m.output := by
  obtain ⟨m₁, hc, hx | ⟨-, -, hx⟩⟩ := MachineM.final_execute h op a b
  · rw [hx] at ht
    exact hc.trace_mem ht
  · rw [hx] at ht
    exact hc.trace_mem ht

theorem Aligned.traced (h : m.Aligned) (i : Instruction) : (m.traced i).Aligned := by
  unfold Machine.traced
  split
  · exact h.moved m.ip m.steps _ h.current
  · exact h

theorem traced_frame (m : Machine) (i : Instruction) :
    (m.traced i).frame = m.frame ∧ (m.traced i).callers = m.callers ∧ (m.traced i).sp = m.sp ∧
      (m.traced i).stack = m.stack := by
  unfold Machine.traced
  split <;> exact ⟨rfl, rfl, rfl, rfl⟩

theorem Aligned.advanced (h : m.Aligned) {op : Opcode}
    (hop : m.frame.ip + op.size ∈ m.frame.code.boundaries) : (m.advanced op).Aligned := by
  unfold Machine.advanced
  split
  · exact h.moved m.ip m.steps m.output hop
  · exact h

private theorem advanced_code (m : Machine) (op : Opcode) :
    (m.advanced op).frame.code = m.frame.code := by
  unfold Machine.advanced
  split <;> rfl

private theorem advanced_frame (m : Machine) {op : Opcode} (h : op.advances = true) :
    (m.advanced op).frame = { m.frame with ip := m.frame.ip + op.size } ∧
      (m.advanced op).callers = m.callers ∧ (m.advanced op).sp = m.sp ∧
      (m.advanced op).stack = m.stack := by
  rw [Machine.advanced, if_pos h]
  exact ⟨rfl, rfl, rfl, rfl⟩

private theorem advanced_output (m : Machine) (op : Opcode) :
    (m.advanced op).output = m.output := by
  unfold Machine.advanced
  split <;> rfl

/-- A call that is not over stands at a listed instruction. -/
theorem Aligned.listed (h : m.Aligned) (hf : m.finished = false) :
    ∃ l, l.offset = m.frame.ip ∧ m.frame.code.Lists l (m.frame.ip + l.instruction.size) := by
  have hlt : m.frame.ip < m.frame.code.size := Nat.not_le.mp (of_decide_eq_false hf)
  exact Code.exists_lists h.holds.frame.reads h.current hlt

/-- A step fails before it executes anything, or executes the listed instruction. -/
theorem Aligned.step_cases (h : m.Aligned) :
    (∃ stop steps, MachineM.step m = .error stop { m with ip := m.frame.ip, steps }) ∨
      ∃ l steps, l.offset = m.frame.ip ∧
        m.frame.code.Lists l (m.frame.ip + l.instruction.size) ∧
        MachineM.step m = MachineM.execute l.instruction.op (l.instruction.operands.getD 0 0)
          (l.instruction.operands.getD 1 0)
          ((Machine.traced { m with ip := m.frame.ip, steps } l.instruction).advanced
            l.instruction.op) := by
  cases hf : m.finished with
  | true =>
    have hnone : m.frame.code[m.frame.ip]? = none :=
      Array.getElem?_eq_none (of_decide_eq_true hf)
    exact .inl ⟨.outOfRange, m.steps, MachineM.step_of_none hnone⟩
  | false =>
    obtain ⟨l, hl, hlists⟩ := h.listed hf
    have hi := (hlists.spec h.holds.frame.reads).1
    rw [hl] at hi
    obtain ⟨steps, hc | ⟨max, -, hc⟩⟩ := MachineM.countStep_cases { m with ip := m.frame.ip }
    · exact .inr ⟨l, steps, hl, hlists, MachineM.step_of_count hi hc⟩
    · refine .inl ⟨.fault (.stepLimit max), steps, ?_⟩
      rw [MachineM.step_eq hi, EStateM.bind_apply, hc]

/-- Before the instruction is executed, its call has been moved to the next boundary. -/
theorem Aligned.prepared (h : m.Aligned) {l : Located}
    (hl : m.frame.code.Lists l (m.frame.ip + l.instruction.size)) (steps : Nat) :
    ((Machine.traced { m with ip := m.frame.ip, steps } l.instruction).advanced
      l.instruction.op).Aligned := by
  apply ((h.moved m.frame.ip steps m.output h.current).traced l.instruction).advanced
  rw [(traced_frame _ l.instruction).1]
  exact hl.next_mem

/-- A step leaves every call at a boundary. -/
theorem Aligned.step (h : m.Aligned) : (MachineM.final MachineM.step m).Aligned := by
  obtain ⟨stop, steps, he⟩ | ⟨l, steps, -, hlists, he⟩ := h.step_cases
  · rw [MachineM.final_of_error he]
    exact h.moved m.frame.ip steps m.output h.current
  · rw [MachineM.final_congr he]
    refine (h.prepared hlists steps).execute _ _ _ fun hp => ?_
    rw [advanced_code, (traced_frame _ l.instruction).1]
    exact h.holds.frame.target_mem hlists hp

/-- The text is the line of a trace for the instruction that is listed where the machine stands, and
the text of the listing has this instruction at this offset, too. -/
def TraceLine (m : Machine) (text : String) : Prop :=
  ∃ l next, m.frame.code.Lists l next ∧ l.offset = m.frame.ip ∧
    text = s!"TRACE ip={l.text} stack={m.sp}" ∧
    ∃ above below, m.frame.code.disassemble =
      .ok (String.join ((above ++ l.text :: below).map (· ++ "\n")))

private theorem traceText_eq (l : Located) (sp : Int) :
    MachineM.traceText l.offset l.instruction sp = s!"TRACE ip={l.text} stack={sp}" := by
  simp only [MachineM.traceText, Located.text, toString, String.append_assoc]

/-- A step adds no other line to a trace. -/
theorem Aligned.traceLine (h : m.Aligned) {text : String}
    (ht : .trace text ∈ (MachineM.final MachineM.step m).output) :
    .trace text ∈ m.output ∨ m.TraceLine text := by
  obtain ⟨stop, steps, he⟩ | ⟨l, steps, hl, hlists, he⟩ := h.step_cases
  · rw [MachineM.final_of_error he] at ht
    exact .inl ht
  rw [MachineM.final_congr he] at ht
  have ht := trace_mem_of_execute (h.prepared hlists steps).holds ht
  rw [advanced_output] at ht
  unfold Machine.traced at ht
  split at ht
  · obtain ht | ht := Array.mem_push.mp ht
    · exact .inl ht
    · refine .inr ⟨l, _, hlists, hl, ?_, hlists.mem_text h.holds.frame.reads⟩
      rw [← traceText_eq, hl]
      exact Output.trace.inj ht
  · exact .inl ht

/-- A step of the machine is that of `l`, which is listed where the machine stands: it acts on the
listed operands. If it succeeds and neither jumps nor returns, then it leaves its call at `next`,
also when it makes a call itself. -/
structure Performs (m : Machine) (l : Located) (next : Nat) : Prop where
  listed : m.frame.code.Lists l next
  offset : l.offset = m.frame.ip
  acts : ∀ m₁, MachineM.countStep { m with ip := m.frame.ip } = .ok () m₁ →
    MachineM.step m = MachineM.execute l.instruction.op (l.instruction.operands.getD 0 0)
      (l.instruction.operands.getD 1 0) ((m₁.traced l.instruction).advanced l.instruction.op)
  advances : ∀ m', MachineM.step m = .ok () m' → l.instruction.op.advances = true →
    (l.instruction.op = .jumpNotTruthy →
      ∀ v, m.stack.at? (m.sp - 1) = some v → v.truthy = true) →
    m'.frame = { m.frame with ip := next } ∧ m'.callers = m.callers ∨
      m'.callers = { m.frame with ip := next } :: m.callers

/-- An instruction that moves on, and does not jump, leaves its call where it was moved to. -/
theorem frame_of_execute {op : Opcode} {a b : Nat} (ha : op.advances = true)
    (ht : op = .jumpNotTruthy → ∀ v, m.stack.at? (m.sp - 1) = some v → v.truthy = true)
    (h : MachineM.execute op a b m = .ok () m') :
    m'.frame = m.frame ∧ m'.callers = m.callers ∨ m'.callers = m.frame :: m.callers := by
  by_cases hp : op.isPlain
  · obtain hsame | hcall := MachineM.execute_advances_eq_ok hp ha h
    · exact .inl hsame
    · exact .inr hcall.2
  · cases op with
    | jump => cases ha
    | jumpNotTruthy =>
      obtain ⟨v, m₁, hpop, h⟩ := EStateM.bind_eq_ok.mp h
      obtain ⟨rfl, hv⟩ := MachineM.pop_eq_ok hpop
      rw [ht rfl v hv] at h
      cases h
      exact .inl ⟨rfl, rfl⟩
    | _ => exact absurd rfl hp

private theorem Aligned.performs (h : m.Aligned) (hf : m.finished = false) :
    ∃ l next, m.Performs l next := by
  obtain ⟨l, hl, hlists⟩ := h.listed hf
  have hi := (hlists.spec h.holds.frame.reads).1
  rw [hl] at hi
  refine ⟨l, _, hlists, hl, fun _ hc => MachineM.step_of_count hi hc, fun m' hs ha ht => ?_⟩
  obtain ⟨steps, hc | ⟨max, -, hc⟩⟩ := MachineM.countStep_cases { m with ip := m.frame.ip }
  · rw [MachineM.step_of_count hi hc] at hs
    obtain ⟨hframe, hcallers, hsp, hstack⟩ :=
      traced_frame { m with ip := m.frame.ip, steps } l.instruction
    obtain ⟨hframe', hcallers', hsp', hstack'⟩ :=
      advanced_frame (Machine.traced { m with ip := m.frame.ip, steps } l.instruction) ha
    have hend := frame_of_execute ha (by rw [hsp', hsp, hstack', hstack]; exact ht) hs
    rw [hframe', hcallers', hframe, hcallers] at hend
    exact hend
  · rw [MachineM.step_eq hi, EStateM.bind_apply, hc] at hs
    cases hs

theorem Aligned.iterate (h : m.Aligned) (n : Nat) :
    ((MachineM.final MachineM.step)^[n] m).Aligned := by
  induction n with
  | zero => exact h
  | succ n ih =>
    rw [Function.iterate_succ_apply']
    exact ih.step

/-- Every line of a trace was added by a step on the way. -/
theorem Aligned.exists_traceLine (h : m.Aligned) {n : Nat} {text : String}
    (ht : .trace text ∈ ((MachineM.final MachineM.step)^[n] m).output) :
    .trace text ∈ m.output ∨
      ∃ k < n, ((MachineM.final MachineM.step)^[k] m).TraceLine text := by
  induction n with
  | zero => exact .inl ht
  | succ n ih =>
    rw [Function.iterate_succ_apply'] at ht
    obtain hold | hnew := (h.iterate n).traceLine ht
    · obtain hold | ⟨k, hk, hline⟩ := ih hold
      · exact .inl hold
      · exact .inr ⟨k, Nat.lt_succ_of_lt hk, hline⟩
    · exact .inr ⟨n, Nat.lt_succ_self n, hnew⟩

theorem Aligned.new {code : Code} (h : code.Regular) {constants : Array Value} {globals : Slots}
    (hc : ∀ v ∈ constants, v.Made fun proto => proto.code.Regular)
    (hg : globals.Made fun proto => proto.code.Regular) (limits : Limits) (tracing : Bool)
    (fresh : Nat) : (new code constants globals limits tracing fresh).Aligned where
  holds := .new h hc hg limits tracing fresh
  frames := by
    intro fr hfr
    obtain rfl := List.mem_singleton.mp hfr
    exact Code.zero_mem_boundaries h.reads

/-- When all code is regular, then after any number of steps every call stands at a boundary of its
code. A further step is that of the instruction listed there, and every line of the trace shows an
instruction as the text of the listing does. -/
theorem steps_follow_listing {code : Code} (h : code.Regular) {constants : Array Value}
    {globals : Slots} (hc : ∀ v ∈ constants, v.Made fun proto => proto.code.Regular)
    (hg : globals.Made fun proto => proto.code.Regular) (limits : Limits) (tracing : Bool)
    (fresh n : Nat) :
    let after (k : Nat) := (MachineM.final MachineM.step)^[k]
      (new code constants globals limits tracing fresh)
    (∀ fr ∈ (after n).frame :: (after n).callers, fr.ip ∈ fr.code.boundaries) ∧
      ((after n).finished = false → ∃ l next, (after n).Performs l next) ∧
      ∀ text, .trace text ∈ (after n).output → ∃ k < n, (after k).TraceLine text := by
  intro after
  have h₀ := Aligned.new h hc hg limits tracing fresh
  have hn := h₀.iterate n
  refine ⟨hn.frames, hn.performs, fun text ht => ?_⟩
  obtain hempty | hline := h₀.exists_traceLine ht
  · exact absurd hempty (Array.not_mem_empty _)
  · exact hline

/-- A function is called by code that ends in a jump to its end. -/
theorem steps_follow_listing_call :
    let proto : Prototype := { id := 0, code := #[Opcode.pushNull.code, Opcode.returnValue.code] }
    let code : Code := #[Opcode.closure.code, 0, 0, 0, Opcode.call.code, 0, Opcode.pop.code,
      Opcode.jump.code, 0, 10]
    let after (k : Nat) := (MachineM.final MachineM.step)^[k]
      (new code #[.function proto] { size := 0 } {} true)
    code.Regular ∧ proto.code.Regular ∧
      ((after 2).frame :: (after 2).callers).map Frame.ip = [0, 6] ∧
      (after 2).output.size = 2 ∧
      (∀ fr ∈ (after 2).frame :: (after 2).callers, fr.ip ∈ fr.code.boundaries) ∧
      (∃ l next, (after 2).Performs l next) ∧
      ∀ text, .trace text ∈ (after 2).output → ∃ k < 2, (after k).TraceLine text := by
  intro proto code after
  have hlist : code.listing = ⟨#[⟨0, ⟨.closure, [0, 0]⟩⟩, ⟨4, ⟨.call, [0]⟩⟩, ⟨6, ⟨.pop, []⟩⟩,
      ⟨7, ⟨.jump, [10]⟩⟩], none⟩ := by
    decide +kernel
  have hlist' : proto.code.listing =
      ⟨#[⟨0, ⟨.pushNull, []⟩⟩, ⟨1, ⟨.returnValue, []⟩⟩], none⟩ := by
    decide +kernel
  have hcode : code.Regular := by
    refine ⟨by rw [hlist], ?_⟩
    rw [Code.boundaries, hlist]
    decide
  have hproto : proto.code.Regular := by
    refine ⟨by rw [hlist'], ?_⟩
    rw [Code.boundaries, hlist']
    decide
  have hc : ∀ v ∈ #[Value.function proto], v.Made fun proto => proto.code.Regular := by
    intro v hv
    obtain rfl := Array.mem_singleton.mp hv
    exact .function hproto
  have hg : Slots.Made (fun proto => proto.code.Regular) { size := 0 } := by
    intro i v hv
    obtain ⟨-, rfl⟩ := Slots.get?_eq_some hv
    exact .null
  obtain ⟨hframes, hperforms, htrace⟩ :=
    steps_follow_listing hcode hc hg {} true (mainId + 1) 2
  exact ⟨hcode, hproto, by decide +kernel, by decide +kernel, hframes,
    hperforms (by decide +kernel), htrace⟩

end Machine

end ClosureVM
