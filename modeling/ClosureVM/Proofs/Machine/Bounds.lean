import ClosureVM.Diagnostic
import ClosureVM.Proofs.Machine.Beginning
import ClosureVM.Proofs.Machine.Changes
import ClosureVM.Proofs.Session.History

/-! The bounds that a machine keeps to, however its code is written. -/
namespace ClosureVM

/-- No count of the function is negative. -/
def Prototype.NonNegative (proto : Prototype) : Prop := 0 ≤ proto.numLocals ∧ 0 ≤ proto.numParams

theorem place?_bounds {size j : Nat} {i : Int} (h : place? size i = some j) :
    -(size : Int) ≤ i ∧ i < size := by
  have hj : 0 ≤ fromStart size i ∧ fromStart size i < size := by
    by_contra hj
    rw [place?, if_neg hj] at h
    cases h
  unfold fromStart at hj
  split at hj <;> omega

theorem Slots.at?_bounds {s : Slots} {i : Int} {v : Value} (h : s.at? i = some v) :
    -(s.size : Int) ≤ i ∧ i < s.size := by
  obtain ⟨j, hj, -⟩ := Option.bind_eq_some_iff.mp h
  exact place?_bounds hj

namespace Machine

/-- The stack pointer is on the stack, or counts from its end. -/
def Inside (m : Machine) : Prop := -(m.stack.size : Int) ≤ m.sp ∧ m.sp ≤ m.stack.size

/-- A machine within the limits `l`, as far as its stack and its calls go. -/
structure Sized (l : Limits) (m : Machine) : Prop where
  limits : m.limits = l
  size : (m.stack.size : Int) = l.stackSize
  depth : (m.depth : Int) ≤ max 1 l.maxFrames

variable {Q : Prototype → Prop} {limits : Limits} {m m' : Machine}

theorem Change.sized (h : m.Change Q m') (hm : m.Sized limits) : m'.Sized limits := by
  cases h with
  | sp | global | lastPopped | fresh | puts => exact ⟨hm.limits, hm.size, hm.depth⟩
  | slot i _ => exact ⟨hm.limits, by rw [Slots.size_set, hm.size], hm.depth⟩
  | enter _ _ hd =>
    refine ⟨hm.limits, hm.size, ?_⟩
    rw [hm.limits] at hd
    show ((m.depth + 1 : Nat) : Int) ≤ _
    omega
  | leave hc =>
    refine ⟨hm.limits, hm.size, ?_⟩
    have hd := hm.depth
    rw [depth, hc, List.length_cons] at hd
    rw [depth]
    dsimp only
    omega

theorem Changes.sized (h : m.Changes Q m') (hm : m.Sized limits) : m'.Sized limits :=
  h.preserve (fun _ _ hc => hc.sized) hm

/-- Where the machine stands for the sake of errors is up to the step. -/
theorem Changes.ip_eq (h : m.Changes Q m') : m'.ip = m.ip :=
  h.preserve (I := fun m₁ => m₁.ip = m.ip)
    (fun _ _ hc hm => by cases hc <;> exact hm) rfl

end Machine

section StackPointer

variable {α β : Type}

/-- When the computation succeeds, the stack pointer is inside, wherever it was before. -/
def Recovers (x : MachineM α) : Prop := ∀ ⦃m a m'⦄, x m = .ok a m' → m'.Inside

/-- When the computation succeeds, the stack pointer is inside if it was so before. -/
def StaysInside (x : MachineM α) : Prop := ∀ ⦃m a m'⦄, x m = .ok a m' → m.Inside → m'.Inside

theorem Recovers.staysInside {x : MachineM α} (h : Recovers x) : StaysInside x :=
  fun _ _ _ hx _ => h hx

theorem Recovers.of_bind {x : MachineM α} {f : α → MachineM β} (hf : ∀ a, Recovers (f a)) :
    Recovers (x >>= f) := by
  intro m b m' h
  obtain ⟨a, m₁, -, hfa⟩ := EStateM.bind_eq_ok.mp h
  exact hf a hfa

theorem Recovers.bind {x : MachineM α} {f : α → MachineM β} (hx : Recovers x)
    (hf : ∀ a, StaysInside (f a)) : Recovers (x >>= f) := by
  intro m b m' h
  obtain ⟨a, m₁, hxa, hfa⟩ := EStateM.bind_eq_ok.mp h
  exact hf a hfa (hx hxa)

theorem Recovers.throw (s : Stop) : Recovers (throwThe Stop s : MachineM α) := by
  intro m a m' h
  cases h

theorem StaysInside.of_same {x : MachineM α}
    (h : ∀ ⦃m a m'⦄, x m = .ok a m' → m'.sp = m.sp ∧ m'.stack.size = m.stack.size) :
    StaysInside x := by
  intro m a m' hx hm
  obtain ⟨hsp, hsize⟩ := h hx
  rwa [Machine.Inside, hsp, hsize]

namespace MachineM

variable {m m' : Machine}

/-- A value is only written to a place that exists. -/
theorem recovers_push (v : Value) : Recovers (push v) := by
  intro m a m' h
  unfold push at h
  obtain ⟨sp, m₁, ⟨⟩, h⟩ := EStateM.bind_eq_ok.mp h
  obtain ⟨m₂, m₃, ⟨⟩, h⟩ := EStateM.bind_eq_ok.mp h
  split at h
  · cases h
  obtain ⟨u, m₄, hset, ⟨⟩⟩ := EStateM.bind_eq_ok.mp h
  obtain ⟨i, hp, rfl⟩ := setSlot_eq_ok hset
  have hb := place?_bounds hp
  show -((m.stack.set i v).size : Int) ≤ m.sp + 1 ∧ m.sp + 1 ≤ (m.stack.set i v).size
  rw [Slots.size_set]
  omega

/-- A value is only read from a place that exists. -/
theorem recovers_pop : Recovers pop := by
  intro m v m' h
  obtain ⟨rfl, hv⟩ := pop_eq_ok h
  have hb := Slots.at?_bounds hv
  exact ⟨hb.1, Int.le_of_lt hb.2⟩

private theorem staysInside_setSlot (i : Int) (v : Value) : StaysInside (setSlot i v) := by
  apply StaysInside.of_same
  intro m u m' h
  obtain ⟨j, -, rfl⟩ := setSlot_eq_ok h
  exact ⟨rfl, Slots.size_set ..⟩

private theorem recovers_callBuiltin (b : Builtin) (n : Int) : Recovers (callBuiltin b n) :=
  .of_bind fun _ => .of_bind fun _ => .of_bind fun _ => .of_bind fun _ => .of_bind fun _ =>
    .of_bind fun _ => recovers_push _

theorem recovers_leave (v : Value) : Recovers (leave v) :=
  .of_bind fun _ => .of_bind fun _ => recovers_push v

private theorem recovers_makeClosure (a n : Nat) : Recovers (makeClosure a n) := by
  refine .of_bind fun _ => .of_bind fun v => ?_
  cases v with
  | function proto => exact .of_bind fun _ => .of_bind fun _ => recovers_push _
  | _ => exact .throw _

/-- The callee is read from the stack, so what lies above it starts inside. -/
theorem inside_of_call {limits : Limits} (hm : m.Holds Prototype.NonNegative) (hs : m.Sized limits)
    {n : Nat} (h : call n m = .ok () m') : m'.Inside := by
  have hsize : m'.stack.size = m.stack.size := by
    have hx := Yields.call n m hm
    rw [h] at hx
    have hs' := hx.1.sized hs
    have := hs.size
    have := hs'.size
    omega
  obtain ⟨_, hv, ⟨id, proto, free, rfl, hcall⟩ | ⟨b, rfl, hcall⟩⟩ := call_cases h
  · obtain ⟨-, -, hsp, hle⟩ := callClosure_eq_ok hcall
    have hb := Slots.at?_bounds hv
    have hlocals : 0 ≤ proto.numLocals := by
      cases hm.stack.at? hv with
      | closure hq _ => exact hq.1
    rw [hs.limits, ← hs.size] at hle
    rw [Machine.Inside, hsize]
    omega
  · exact recovers_callBuiltin b n hcall

/-- An instruction that moves the stack pointer by more than it checks pushes a value then. -/
theorem staysInside_execute {op : Opcode} (hc : op ≠ .call) (a b : Nat) :
    StaysInside (execute op a b) := by
  cases op with
  | call => exact absurd rfl hc
  -- these push in the end, whatever they do to the stack pointer before
  | pushTrue | pushFalse | pushNull => exact (recovers_push _).staysInside
  | currentClosure | bang => exact (Recovers.of_bind fun _ => recovers_push _).staysInside
  | constant | getGlobal | getLocal | getFree | minus | array =>
    exact (Recovers.of_bind fun _ => .of_bind fun _ => recovers_push _).staysInside
  | add | sub | mul | div | equal | notEqual | greaterThan | index =>
    exact (Recovers.of_bind fun _ => .of_bind fun _ => .of_bind fun _ =>
      recovers_push _).staysInside
  | getBuiltin =>
    unfold execute
    dsimp only
    split
    · exact (recovers_push _).staysInside
    · exact (Recovers.throw _).staysInside
  | hash =>
    exact (Recovers.of_bind fun _ => .of_bind fun _ => .of_bind fun _ => .of_bind fun _ =>
      recovers_push _).staysInside
  | returnValue => exact (Recovers.of_bind fun _ => recovers_leave _).staysInside
  | returnNull => exact (recovers_leave _).staysInside
  | closure => exact (recovers_makeClosure a b).staysInside
  -- the others pop at most, and leave the stack pointer where it is then
  | pop =>
    refine (recovers_pop.bind fun v => .of_same ?_).staysInside
    intro m a m' h
    cases h
    dsimp only
    split <;> exact ⟨rfl, rfl⟩
  | jump =>
    refine .of_same fun m a m' h => ?_
    cases h
    exact ⟨rfl, rfl⟩
  | jumpNotTruthy =>
    refine (recovers_pop.bind fun v => .of_same fun m a m' h => ?_).staysInside
    cases ht : v.truthy with
    | true =>
      rw [ht] at h
      cases h
      exact ⟨rfl, rfl⟩
    | false =>
      rw [ht] at h
      cases h
      exact ⟨rfl, rfl⟩
  | setGlobal =>
    refine (recovers_pop.bind fun v => .of_same fun m u m' h => ?_).staysInside
    obtain ⟨m₁, m₂, ⟨⟩, h⟩ := EStateM.bind_eq_ok.mp h
    split at h
    · cases h
    · cases h
      exact ⟨rfl, rfl⟩
  | setLocal =>
    refine (recovers_pop.bind fun v => fun m u m' h hm => ?_).staysInside
    obtain ⟨m₁, m₂, ⟨⟩, h⟩ := EStateM.bind_eq_ok.mp h
    exact staysInside_setSlot _ _ h hm

end MachineM

end StackPointer

/-- A step fails before it executes anything, or executes some instruction after it has moved on in
its own frame. -/
theorem MachineM.step_cases (m : Machine) :
    (∃ stop steps output, step m = .error stop { m with ip := m.frame.ip, steps, output }) ∨
      ∃ op a b steps output ip, step m = execute op a b
        { m with ip := m.frame.ip, steps, output, frame := { m.frame with ip } } := by
  have hbegins := step_begins m
  generalize step m = r at hbegins
  cases hbegins with
  | absent _ => exact .inl ⟨_, m.steps, m.output, rfl⟩
  | refused _ _ | undefined _ _ => exact .inl ⟨_, _, m.output, rfl⟩
  | truncated _ _ _ =>
    obtain ⟨output, ht⟩ := m.counted.exists_traced_eq _
    rw [ht]
    exact .inl ⟨_, _, output, rfl⟩
  | executes _ _ _ =>
    obtain ⟨output, ht⟩ := m.counted.exists_traced_eq _
    rw [ht]
    exact .inr ⟨_, _, _, _, output, _, rfl⟩

namespace Machine

/-- A machine that keeps to all its bounds. -/
structure Bounded (l : Limits) (m : Machine) : Prop extends m.Sized l where
  holds : m.Holds Prototype.NonNegative
  inside : m.Inside

variable {l : Limits} {m m' : Machine}

theorem Bounded.moved (h : m.Bounded l) (ip steps : Nat) (output : Array Output) (target : Nat) :
    Bounded l { m with ip, steps, output, frame := { m.frame with ip := target } } where
  limits := h.limits
  size := h.size
  depth := h.depth
  holds := h.holds.moved ip steps output target
  inside := h.inside

theorem Bounded.next (h : m.Bounded l) (hn : m.Next m') : m'.Bounded l := by
  obtain ⟨-, hs⟩ := hn
  obtain ⟨stop, steps, output, he⟩ | ⟨op, a, b, steps, output, ip, he⟩ := MachineM.step_cases m
  · rw [he] at hs
    cases hs
  rw [he] at hs
  have h₁ := h.moved m.frame.ip steps output ip
  have hinside : m'.Inside := by
    by_cases hop : op = .call
    · rw [hop] at hs
      exact MachineM.inside_of_call h₁.holds h₁.toSized hs
    · exact MachineM.staysInside_execute hop a b hs h₁.inside
  obtain ⟨m₂, hc, hx | ⟨-, -, -, hx⟩ | ⟨s, -, hx⟩⟩ := MachineM.execute_changes h₁.holds op a b
  · rw [hx] at hs
    cases hs
    exact ⟨hc.sized h₁.toSized, hc.holds h₁.holds, hinside⟩
  · rw [hx] at hs
    cases hs
    have h₂ : m₂.Bounded l := ⟨hc.sized h₁.toSized, hc.holds h₁.holds, hinside⟩
    exact h₂.moved m₂.ip m₂.steps m₂.output a
  · rw [hx] at hs
    cases hs

theorem Reaches.bounded {P : Machine → Prop} {m₀ : Machine} (h : Reaches P m₀ m)
    (h₀ : m₀.Bounded l) : m.Bounded l := by
  induction h with
  | start => exact h₀
  | step _ hn _ ih => exact ih.next hn

theorem Bounded.new (code : Code) {constants : Array Value} {globals : Slots}
    (hc : ∀ v ∈ constants, v.Made Prototype.NonNegative) (hg : globals.Made Prototype.NonNegative)
    (hl : 0 ≤ l.stackSize) (tracing : Bool) (fresh : Nat) :
    (new code constants globals l tracing fresh).Bounded l where
  limits := rfl
  size := Int.toNat_of_nonneg hl
  depth := Int.le_max_left 1 l.maxFrames
  holds := .new ⟨Int.le_refl 0, Int.le_refl 0⟩ hc hg l tracing fresh
  inside := by
    show -((_ : Nat) : Int) ≤ 0 ∧ (0 : Int) ≤ (_ : Nat)
    omega

/-- A step that fails does so where it started. When it cannot read the code, no call has been made
or ended since. -/
theorem Bounded.step_error (h : m.Bounded l) {stop : Stop}
    (hs : MachineM.step m = .error stop m') :
    m'.ip = m.frame.ip ∧
      ∀ e, stop = .malformed e → m'.frame = m.frame ∧ m'.callers = m.callers := by
  obtain ⟨s, steps, output, he⟩ | ⟨op, a, b, steps, output, ip, he⟩ := MachineM.step_cases m
  · rw [he] at hs
    cases hs
    exact ⟨rfl, fun _ _ => ⟨rfl, rfl⟩⟩
  rw [he] at hs
  have h₁ := h.moved m.frame.ip steps output ip
  obtain ⟨m₂, hc, hx | ⟨-, -, -, hx⟩ | ⟨s, hsens, hx⟩⟩ := MachineM.execute_changes h₁.holds op a b
  · rw [hx] at hs
    cases hs
  · rw [hx] at hs
    cases hs
  · rw [hx] at hs
    cases hs
    refine ⟨hc.ip_eq, ?_⟩
    rintro e rfl
    exact absurd hsens id

private theorem stackTrace_eq (hip : m'.ip = m.frame.ip) (hf : m'.frame = m.frame)
    (hc : m'.callers = m.callers) : m'.stackTrace = { m with ip := m.frame.ip }.stackTrace := by
  rw [stackTrace, hip, hf, hc]
  rfl

/-- A step that cannot read the code is reported as an error of the program, found at the
instruction under execution, and with the calls in progress. -/
theorem Bounded.diagnostic_malformed (h : m.Bounded l) {e : CodeError}
    (hs : MachineM.step m = .error (.malformed e) m') :
    (m'.failure (.malformed e)).diagnostic? = some (.runtime e.message (some m.frame.ip)
      { m with ip := m.frame.ip }.stackTrace) := by
  obtain ⟨hip, hcalls⟩ := h.step_error hs
  obtain ⟨hframe, hcallers⟩ := hcalls e rfl
  rw [failure, Failure.diagnostic?, stackTrace_eq hip hframe hcallers, hip]
  rfl

/-- Whatever the code, every machine that a run goes through keeps to the limits: the stack has its
size, the stack pointer is on it or counts from its end, and there are no more calls than allowed.
A run that comes to code it cannot read ends there, and whenever a run ends for that, it does so
with an error of the program like others, found at the instruction under execution, and with the
calls in progress. -/
theorem Reaches.within_limits (code : Code) {constants : Array Value} {globals : Slots}
    (hc : ∀ v ∈ constants, v.Made Prototype.NonNegative) (hg : globals.Made Prototype.NonNegative)
    (hl : 0 ≤ l.stackSize) (tracing : Bool) (fresh : Nat) :
    (∀ m, Reaches (fun _ => True) (new code constants globals l tracing fresh) m →
      (m.stack.size : Int) = l.stackSize ∧ -l.stackSize ≤ m.sp ∧ m.sp ≤ l.stackSize ∧
        1 ≤ m.depth ∧ (m.depth : Int) ≤ max 1 l.maxFrames) ∧
    (∀ m m' e, Reaches (fun _ => True) (new code constants globals l tracing fresh) m →
      m.finished = false → MachineM.step m = .error (.malformed e) m' →
      ∃ fuel f, (new code constants globals l tracing fresh).run? fuel = some (.error f, m') ∧
        f.diagnostic? = some (.runtime e.message (some m.frame.ip)
          { m with ip := m.frame.ip }.stackTrace)) ∧
    ∀ fuel f m', (new code constants globals l tracing fresh).run? fuel = some (.error f, m') →
      ∃ m stop, Reaches (fun _ => True) (new code constants globals l tracing fresh) m ∧
        MachineM.step m = .error stop m' ∧ f = m'.failure stop ∧
        ∀ e, stop = .malformed e → f.diagnostic? = some (.runtime e.message (some m.frame.ip)
          { m with ip := m.frame.ip }.stackTrace) := by
  have h₀ := Bounded.new code hc hg hl tracing fresh
  refine ⟨fun m hm => ?_, fun m m' e hm hf hs => ?_, fun fuel f m' hr => ?_⟩
  · have hb := hm.bounded h₀
    have hin := hb.inside
    rw [Inside, hb.size] at hin
    exact ⟨hb.size, hin.1, hin.2, Nat.le_add_left 1 _, hb.depth⟩
  · obtain ⟨fuel, hrun⟩ := hm.exists_run? (run?_of_stop hf hs 0)
    exact ⟨fuel, _, hrun, (hm.bounded h₀).diagnostic_malformed hs⟩
  · obtain ⟨m, hm, ⟨-, hok, -⟩ | ⟨-, stop, hs, hf⟩⟩ := exists_of_run?_eq_some hr
    · cases hok
    cases hf
    refine ⟨m, stop, hm, hs, rfl, ?_⟩
    rintro e rfl
    exact (hm.bounded h₀).diagnostic_malformed hs

/-- An array of three elements is made on an empty stack, and what follows is no instruction. -/
theorem Reaches.within_limits_negative :
    let proto : Prototype := { id := 0, code := #[], numLocals := 1 }
    let m₀ := new #[Opcode.array.code, 0, 3, 250] #[.function proto] { size := 1 }
      { stackSize := 5, maxFrames := 0 }
    ∃ m m' e, Reaches (fun _ => True) m₀ m ∧ m.sp = -2 ∧
      ((m.stack.size : Int) = 5 ∧ -5 ≤ m.sp ∧ m.sp ≤ 5 ∧ 1 ≤ m.depth ∧ (m.depth : Int) ≤ max 1 0) ∧
      MachineM.step m = .error (.malformed e) m' ∧
      ∃ fuel f, m₀.run? fuel = some (.error f, m') ∧
        f.diagnostic? = some (.runtime "opcode 250 undefined" (some 3)
          [⟨some "<main>", some (.int 3)⟩]) := by
  intro proto m₀
  have hc : ∀ v ∈ #[Value.function proto], v.Made Prototype.NonNegative := by
    intro v hv
    obtain rfl := Array.mem_singleton.mp hv
    exact .function ⟨by decide, by decide⟩
  have hg : Slots.Made Prototype.NonNegative { size := 1 } := by
    intro i v hv
    obtain ⟨-, rfl⟩ := Slots.get?_eq_some hv
    exact .null
  obtain ⟨hbounds, hmalformed, -⟩ := within_limits (l := { stackSize := 5, maxFrames := 0 })
    #[Opcode.array.code, 0, 3, 250] hc hg (by decide) false (mainId + 1)
  have hm : Reaches (fun _ => True) m₀ _ := .step (.start trivial) ⟨rfl, rfl⟩ trivial
  obtain ⟨fuel, f, hrun, hf⟩ := hmalformed _ _ (.undefinedOpcode 250) hm rfl rfl
  refine ⟨_, _, .undefinedOpcode 250, hm, ?_, hbounds _ hm, rfl, fuel, f, hrun, hf.trans ?_⟩
  · decide +kernel
  · decide +kernel

end Machine

end ClosureVM
