import ClosureVM.Proofs.Machine.Alike
import ClosureVM.Proofs.Machine.Bounds
import ClosureVM.Proofs.Machine.Tracing

/-! The stack trace of an error shows the calls in progress, each at the instruction that made the
next one, however the code is written. -/
namespace ClosureVM

namespace MachineM

variable {m m' : Machine} {s : Stop} {v : Value}

theorem setSlot_stopped {i : Int} (h : setSlot i v m = .error s m') : s = .outOfRange := by
  unfold setSlot at h
  rw [EStateM.bind_ok (EStateM.get_apply m)] at h
  cases hp : place? m.stack.size i with
  | none =>
    rw [hp] at h
    cases h
    rfl
  | some j =>
    rw [hp] at h
    cases h

private theorem clear_stopped {i : Int} {n : Nat} (h : clear i n m = .error s m') :
    s = .outOfRange := by
  induction n generalizing i m with
  | zero => cases h
  | succ n ih =>
    obtain h | ⟨_, m₁, -, h⟩ := EStateM.bind_eq_error.mp h
    · exact setSlot_stopped h
    · exact ih h

/-- A value that there is room for can be pushed, or has no place. -/
theorem push_stopped (hroom : m.sp < m.limits.stackSize) (h : push v m = .error s m') :
    s = .outOfRange := by
  unfold push at h
  obtain h | ⟨sp, m₁, ⟨⟩, h⟩ := EStateM.bind_eq_error.mp h
  · cases h
  rw [EStateM.bind_ok (EStateM.get_apply m), if_neg (Int.not_le.mpr hroom)] at h
  obtain h | ⟨_, m₁, -, h⟩ := EStateM.bind_eq_error.mp h
  · exact setSlot_stopped h
  · cases h

/-- A call that is refused has not been entered. -/
theorem callClosure_stopped {id : Nat} {proto : Prototype} {free : List Value} {n : Int}
    (h : callClosure id proto free n m = .error s m') (hs : s ≠ .outOfRange) : m' = m := by
  by_cases hn : n = proto.numParams
  · by_cases hl : m.limits.stackSize < m.sp - n + proto.numLocals
    · rw [callClosure_of_full hn hl] at h
      cases h
      rfl
    · by_cases hf : m.limits.maxFrames ≤ m.depth
      · rw [callClosure_of_deep hn hl hf] at h
        cases h
        rfl
      · -- only the places of the locals may be missing then
        exfalso
        apply hs
        simp only [callClosure, pushFrame, sp, EStateM.bind_apply, EStateM.get_apply,
          EStateM.pure_apply, EStateM.set_apply, if_neg (not_not_intro hn), if_neg hl,
          if_neg hf] at h
        obtain h | ⟨_, _, -, h⟩ := EStateM.bind_eq_error.mp ((EStateM.bind_apply _ _ _).trans h)
        · exact clear_stopped h
        · cases h
  · rw [callClosure_of_arity hn] at h
    cases h
    rfl

private theorem call_stopped {n : Int} (h : call n m = .error s m') (hs : s ≠ .outOfRange) :
    m'.frame = m.frame ∧ m'.callers = m.callers := by
  unfold call at h
  obtain h | ⟨sp, m₁, ⟨⟩, h⟩ := EStateM.bind_eq_error.mp h
  · cases h
  obtain h | ⟨callee, m₁, hslot, h⟩ := EStateM.bind_eq_error.mp h
  · exact (SameCalls.slot _).stopped h
  obtain ⟨rfl, -⟩ := slot_eq_ok hslot
  cases callee with
  | closure id proto free =>
    rw [callClosure_stopped h hs]
    exact ⟨rfl, rfl⟩
  | builtin b => exact (SameCalls.callBuiltin b n).stopped h
  | _ =>
    cases h
    exact ⟨rfl, rfl⟩

/-- A return fails before it leaves its call, since there is room where the callee was. -/
theorem leave_stopped (hbase : m.callers ≠ [] → m.frame.base ≤ m.limits.stackSize)
    (h : leave v m = .error s m') (hs : s ≠ .outOfRange) :
    m'.frame = m.frame ∧ m'.callers = m.callers := by
  cases hc : m.callers with
  | nil =>
    simp only [leave, popFrame, EStateM.bind_apply, EStateM.get_apply, hc] at h
    cases h
    exact ⟨rfl, hc⟩
  | cons fr callers =>
    have hb := hbase (by simp [hc])
    rw [leave_cons hc] at h
    refine absurd (push_stopped ?_ h) hs
    dsimp only
    omega

/-- An instruction that fails has neither made nor ended a call. -/
theorem execute_stopped {op : Opcode} {a b : Nat}
    (hbase : m.callers ≠ [] → m.frame.base ≤ m.limits.stackSize)
    (h : execute op a b m = .error s m') (hs : s ≠ .outOfRange) :
    m'.frame = m.frame ∧ m'.callers = m.callers := by
  cases op with
  | jump => cases h
  | jumpNotTruthy =>
    obtain h | ⟨u, m₁, -, h⟩ := EStateM.bind_eq_error.mp h
    · exact SameCalls.pop.stopped h
    · cases hu : u.truthy <;> rw [hu] at h <;> cases h
  | call => exact call_stopped h hs
  | returnNull => exact leave_stopped hbase h hs
  | returnValue =>
    obtain h | ⟨u, m₁, hpop, h⟩ := EStateM.bind_eq_error.mp h
    · exact SameCalls.pop.stopped h
    · obtain ⟨rfl, -⟩ := pop_eq_ok hpop
      exact leave_stopped (m := { m with sp := m.sp - 1 }) hbase h hs
  | _ => exact (SameCalls.execute rfl (by decide) rfl a b).stopped h

/-- The callee is on the stack, so that its arguments start there or right above. -/
theorem base_of_call {n : Int} (hsize : m.stack.size = m.limits.stackSize.toNat)
    (h : call n m = .ok () m') (hc : m'.callers = m.frame :: m.callers) :
    m'.frame.base ≤ m.limits.stackSize := by
  obtain ⟨_, hv, ⟨id, proto, free, -, h⟩ | ⟨b, -, h⟩⟩ := call_cases h
  · have hb := Slots.at?_bounds hv
    rw [(callClosure_eq_ok h).1]
    dsimp only
    omega
  · rw [((SameCalls.callBuiltin b n).calls h).2] at hc
    exact absurd hc List.ne_cons_self

end MachineM

namespace Machine

variable {m m' m₀ : Machine}

private theorem Changes.limits_size (h : m.Changes (fun _ => True) m') :
    m'.limits = m.limits ∧ m'.stack.size = m.stack.size := by
  refine h.preserve (I := fun x => x.limits = m.limits ∧ x.stack.size = m.stack.size) ?_ ⟨rfl, rfl⟩
  intro x y hc hx
  cases hc with
  | slot i _ => exact ⟨hx.1, (Slots.size_set ..).trans hx.2⟩
  | _ => exact hx

end Machine

/-- A step makes changes to a machine that stands at the instruction, and may jump then. -/
theorem MachineM.final_step (m : Machine) : ∃ steps output ip m₁ ip₁,
    Machine.Changes (fun _ => True)
      { m with ip := m.frame.ip, steps, output, frame := { m.frame with ip } } m₁ ∧
    final step m = m₁.goTo ip₁ := by
  obtain ⟨stop, steps, output, he⟩ | ⟨op, a, b, steps, output, ip, he⟩ := step_cases m
  · exact ⟨steps, output, m.frame.ip, _, m.frame.ip, .refl _, final_of_error he⟩
  · obtain ⟨m₁, hc, hx | ⟨-, -, hx⟩⟩ := final_execute (Machine.holds_true _) op a b
    · exact ⟨steps, output, ip, m₁, m₁.frame.ip, hc, (final_congr he).trans hx⟩
    · exact ⟨steps, output, ip, m₁, a, hc, (final_congr he).trans hx⟩

namespace Machine

variable {m m' m₀ : Machine}

private theorem limits_size_of_step (m : Machine) :
    (MachineM.final MachineM.step m).limits = m.limits ∧
      (MachineM.final MachineM.step m).stack.size = m.stack.size := by
  obtain ⟨_, _, _, m₁, ip₁, hc, hfinal⟩ := MachineM.final_step m
  rw [hfinal]
  exact hc.limits_size

/-- Where an error is found is where the step started. -/
theorem ip_of_step (m : Machine) : (MachineM.final MachineM.step m).ip = m.frame.ip := by
  obtain ⟨_, _, _, m₁, ip₁, hc, hfinal⟩ := MachineM.final_step m
  rw [hfinal]
  exact hc.ip_eq

/-- What becomes of the calls in a step: the innermost one goes on, makes a call, or returns. -/
inductive Turns (m m' : Machine) : Prop
  | stays {ip : Nat} : m'.frame = { m.frame with ip } → m'.callers = m.callers → Turns m m'
  | calls : m.frame.code[m.frame.ip]?.bind Opcode.ofByte? = some .call →
    m'.callers = { m.frame with ip := m.frame.ip + 2 } :: m.callers →
    m'.frame.base ≤ m.limits.stackSize → Turns m m'
  | returns : m.callers = m'.frame :: m'.callers → Turns m m'

private theorem frames_of_execute {op : Opcode} {a b : Nat}
    (hsize : m.stack.size = m.limits.stackSize.toNat) (h : MachineM.execute op a b m = .ok () m') :
    (∃ ip, m'.frame = { m.frame with ip } ∧ m'.callers = m.callers) ∨
      (op = .call ∧ m'.callers = m.frame :: m.callers ∧ m'.frame.base ≤ m.limits.stackSize) ∨
      m.callers = m'.frame :: m'.callers := by
  cases op with
  | jump =>
    cases h
    exact .inl ⟨a, rfl, rfl⟩
  | jumpNotTruthy =>
    obtain ⟨v, m₁, hpop, h⟩ := EStateM.bind_eq_ok.mp h
    obtain ⟨rfl, -⟩ := MachineM.pop_eq_ok hpop
    cases hv : v.truthy with
    | true =>
      rw [hv] at h
      cases h
      exact .inl ⟨m.frame.ip, rfl, rfl⟩
    | false =>
      rw [hv] at h
      cases h
      exact .inl ⟨a, rfl, rfl⟩
  | call =>
    obtain ⟨hframe, hcallers⟩ | ⟨-, hcallers⟩ := MachineM.call_eq_ok h
    · exact .inl ⟨m.frame.ip, hframe, hcallers⟩
    · exact .inr (.inl ⟨rfl, hcallers, MachineM.base_of_call hsize h hcallers⟩)
  | returnNull | returnValue => exact .inr (.inr (MachineM.execute_return_eq_ok rfl rfl h))
  | _ =>
    obtain ⟨hframe, hcallers⟩ := (SameCalls.execute rfl (by decide) rfl a b).calls h
    exact .inl ⟨m.frame.ip, hframe, hcallers⟩

theorem Next.turns (h : m.Next m') (hsize : m.stack.size = m.limits.stackSize.toNat) :
    m.Turns m' := by
  have hbegins := MachineM.step_begins m
  rw [h.2] at hbegins
  generalize hr : EStateM.Result.ok () m' = r at hbegins
  cases hbegins with
  | absent _ | refused _ _ | undefined _ _ | truncated _ _ _ => cases hr
  | @executes byte op a b hat _ _ =>
    obtain ⟨output, ht⟩ := m.counted.exists_traced_eq (m.frame.code.instructionAt op m.frame.ip)
    rw [ht] at hr
    obtain ⟨ip, hframe, hcallers⟩ | ⟨rfl, hcallers, hbase⟩ | hcallers :=
      frames_of_execute (m := goTo { m.counted with output } _) hsize hr.symm
    · exact .stays hframe hcallers
    · exact .calls (by rw [hat.1]; exact hat.2) hcallers hbase
    · exact .returns hcallers

/-- A call in progress: the machine `m₁` made it from the instruction at `offset`, and the caller,
which waits behind that instruction, has not been returned to on the way to `m`. -/
structure InProgress (m₀ m : Machine) (fr : Frame) (below : List Frame) (offset : Nat) : Prop where
  ip : fr.ip = offset + 2
  opcode : fr.code[offset]?.bind Opcode.ofByte? = some .call
  made : ∃ m₁ m₂, Reaches (fun _ => True) m₀ m₁ ∧ m₁.frame = { fr with ip := offset } ∧
    m₁.callers = below ∧ m₁.Next m₂ ∧ Reaches (fun k => fr :: below <:+ k.callers) m₂ m

/-- What holds of the calls on the way from a machine `m₀` without callers. -/
structure Underway (m₀ m : Machine) : Prop where
  size : m.stack.size = m.limits.stackSize.toNat
  bases : ∀ fr callers, fr :: callers <:+ m.frame :: m.callers → callers ≠ [] →
    fr.base ≤ m.limits.stackSize
  main : ((m.frame :: m.callers).map Frame.proto).getLast? = some m₀.frame.proto
  calls : ∀ fr below, fr :: below <:+ m.callers → ∃ offset, InProgress m₀ m fr below offset

theorem InProgress.next {fr : Frame} {below : List Frame} {offset : Nat}
    (h : InProgress m₀ m fr below offset) (hn : m.Next m') (hs : fr :: below <:+ m'.callers) :
    InProgress m₀ m' fr below offset := by
  obtain ⟨m₁, m₂, hm₁, hframe, hcallers, hcall, hwait⟩ := h.made
  exact ⟨h.ip, h.opcode, m₁, m₂, hm₁, hframe, hcallers, hcall, .step hwait hn hs⟩

theorem Underway.moved_bases (h : Underway m₀ m) {fr : Frame} {callers : List Frame} {ip : Nat}
    (hs : fr :: callers <:+ { m.frame with ip } :: m.callers) (hne : callers ≠ []) :
    fr.base ≤ m.limits.stackSize := by
  obtain heq | hs := List.suffix_cons_iff.mp hs
  · obtain ⟨rfl, rfl⟩ := List.cons.inj heq
    exact h.bases m.frame m.callers List.suffix_rfl hne
  · exact h.bases fr callers (hs.trans (List.suffix_cons _ _)) hne

theorem Underway.next (h : Underway m₀ m) (hr : Reaches (fun _ => True) m₀ m) (hn : m.Next m') :
    Underway m₀ m' := by
  obtain ⟨hlimits, hsize⟩ := limits_size_of_step m
  rw [MachineM.final_of_ok hn.2] at hlimits hsize
  have hbound : m'.stack.size = m'.limits.stackSize.toNat := by rw [hsize, hlimits, h.size]
  have hwaiting : ∀ fr below, fr :: below <:+ m.callers → fr :: below <:+ m'.callers →
      ∃ offset, InProgress m₀ m' fr below offset := by
    intro fr below hs hs'
    obtain ⟨offset, hcall⟩ := h.calls fr below hs
    exact ⟨offset, hcall.next hn hs'⟩
  cases hn.turns h.size with
  | stays hframe hcallers =>
    refine ⟨hbound, fun fr callers hs hne => ?_, ?_, fun fr below hs => ?_⟩
    · rw [hframe, hcallers] at hs
      rw [hlimits]
      exact h.moved_bases hs hne
    · rw [hframe, hcallers]
      exact h.main
    · exact hwaiting fr below (hcallers ▸ hs) hs
  | calls hop hcallers hbase =>
    refine ⟨hbound, fun fr callers hs hne => ?_, ?_, fun fr below hs => ?_⟩
    · rw [hlimits]
      rw [hcallers] at hs
      obtain heq | hs := List.suffix_cons_iff.mp hs
      · obtain ⟨rfl, -⟩ := List.cons.inj heq
        exact hbase
      · exact h.moved_bases hs hne
    · rw [hcallers, List.map_cons, List.map_cons, List.getLast?_cons_cons]
      exact h.main
    · -- the call that has just been made is the innermost one in progress
      obtain heq | hs' := List.suffix_cons_iff.mp (hcallers ▸ hs)
      · obtain ⟨rfl, rfl⟩ := List.cons.inj heq
        exact ⟨m.frame.ip, rfl, hop, m, m', hr, rfl, rfl, hn, .start hs⟩
      · exact hwaiting fr below hs' hs
  | returns hcallers =>
    refine ⟨hbound, fun fr callers hs hne => ?_, ?_, fun fr below hs => ?_⟩
    · rw [hlimits]
      rw [← hcallers] at hs
      exact h.bases fr callers (hs.trans (List.suffix_cons _ _)) hne
    · have hmain := h.main
      rwa [hcallers, List.map_cons, List.map_cons, List.getLast?_cons_cons] at hmain
    · refine hwaiting fr below ?_ hs
      rw [hcallers]
      exact hs.trans (List.suffix_cons _ _)

theorem Reaches.underway (h : Reaches (fun _ => True) m₀ m) (h₀ : Underway m₀ m₀) :
    Underway m₀ m := by
  induction h with
  | start _ => exact h₀
  | step hr hn _ ih => exact ih.next hr hn

theorem Underway.new (code : Code) (constants : Array Value) (globals : Slots) (limits : Limits)
    (tracing : Bool) (fresh : Nat) :
    Underway (new code constants globals limits tracing fresh)
      (new code constants globals limits tracing fresh) where
  size := rfl
  bases fr callers hs hne := by
    obtain heq | hs := List.suffix_cons_iff.mp hs
    · exact absurd (List.cons.inj heq).2 hne
    · exact absurd (List.suffix_nil.mp hs) (List.cons_ne_nil _ _)
  main := rfl
  calls fr below hs := absurd (List.suffix_nil.mp hs) (List.cons_ne_nil _ _)

/-- A step that fails, unless for want of a place, leaves all calls as they were. -/
theorem Underway.step_error (h : Underway m₀ m) {stop : Stop}
    (hs : MachineM.step m = .error stop m') (hne : stop ≠ .outOfRange) :
    m'.frame = { m.frame with ip := m'.frame.ip } ∧ m'.callers = m.callers := by
  have hbegins := MachineM.step_begins m
  rw [hs] at hbegins
  generalize hr : EStateM.Result.error stop m' = r at hbegins
  cases hbegins with
  | absent _ | truncated _ _ _ =>
    cases hr
    exact absurd rfl hne
  | refused _ _ | undefined _ _ =>
    cases hr
    exact ⟨rfl, rfl⟩
  | @executes byte op a b _ _ _ =>
    obtain ⟨output, ht⟩ := m.counted.exists_traced_eq (m.frame.code.instructionAt op m.frame.ip)
    rw [ht] at hr
    have hbase : m.callers ≠ [] → m.frame.base ≤ m.limits.stackSize :=
      h.bases m.frame m.callers List.suffix_rfl
    have hstopped := MachineM.execute_stopped
      (m := goTo { m.counted with output } (m.frame.ip + MachineM.stride op)) hbase hr.symm hne
    obtain ⟨hframe, hcallers⟩ := hstopped
    refine ⟨?_, hcallers⟩
    rw [hframe]
    rfl

/-- The lines of a stack trace are those of the calls of `m`, innermost first: the first shows the
place `ip`, and every other one the call that is in progress there. -/
structure ListsCalls (m₀ m : Machine) (ip : Nat) (calls : List Call) : Prop where
  length : calls.length = m.depth
  names : calls.map Call.name = (m.frame :: m.callers).map (·.proto.name)
  main : calls.getLast?.map Call.name = some (some "<main>")
  innermost : calls.head?.map Call.ip = some (some (.int ip))
  callers : ∀ i fr, m.callers[i]? = some fr → ∃ offset : Nat,
    calls[i + 1]?.map Call.ip = some (some (.int offset)) ∧
      InProgress m₀ m fr (m.callers.drop (i + 1)) offset

theorem Underway.lists (h : Underway m₀ m) (hname : m₀.frame.proto.name = some "<main>")
    (ip : Nat) : ListsCalls m₀ m ip { m with ip }.stackTrace where
  length := by simp [stackTrace, depth]
  names := by simp [stackTrace, Function.comp_def]
  main := by
    have hlast : { m with ip }.stackTrace.map Call.name =
        ((m.frame :: m.callers).map Frame.proto).map Prototype.name := by
      simp [stackTrace, Function.comp_def]
    rw [← List.getLast?_map, hlast, List.getLast?_map, h.main, Option.map_some, hname]
  innermost := rfl
  callers i fr hfr := by
    have hlt := (List.getElem?_eq_some_iff.mp hfr).1
    have hsuffix : fr :: m.callers.drop (i + 1) <:+ m.callers := by
      rw [← (List.getElem?_eq_some_iff.mp hfr).2, List.getElem_cons_drop]
      exact List.drop_suffix i m.callers
    obtain ⟨offset, hcall⟩ := h.calls fr _ hsuffix
    refine ⟨offset, ?_, hcall⟩
    have hip : (fr.ip : Int) - 2 = offset := by
      rw [hcall.ip]
      omega
    simp [stackTrace, hfr, hip]

/-- Whatever the code, the error of a program that fails is found at the instruction under
execution, and it comes with a line for every call in progress, down to the program itself. No call
has been made or ended by the instruction that failed. -/
theorem fault_shows_calls (code : Code) (constants : Array Value) (globals : Slots)
    (limits : Limits) (tracing : Bool) (fresh : Nat) {fuel : Nat} {f : Fault} {ip : Nat}
    {calls : List Call} {m' : Machine}
    (hr : (new code constants globals limits tracing fresh).run? fuel =
      some (.error (.fault f ip calls), m')) :
    ∃ m stop, Reaches (fun _ => True) (new code constants globals limits tracing fresh) m ∧
      MachineM.step m = .error stop m' ∧
      m'.frame = { m.frame with ip := m'.frame.ip } ∧ m'.callers = m.callers ∧
      ip = m.frame.ip ∧ ip < m.frame.code.size ∧
      ListsCalls (new code constants globals limits tracing fresh) m ip calls := by
  obtain ⟨m, hm, ⟨-, hok, -⟩ | ⟨hf, stop, hs, hfailure⟩⟩ := exists_of_run?_eq_some hr
  · cases hok
  have h := hm.underway (.new code constants globals limits tracing fresh)
  have hne : stop ≠ .outOfRange := by
    rintro rfl
    cases hfailure
  obtain ⟨hframe, hcallers⟩ := h.step_error hs hne
  have hip : m'.ip = m.frame.ip := MachineM.final_of_error hs ▸ ip_of_step m
  have htrace : m'.stackTrace = { m with ip := m.frame.ip }.stackTrace := by
    rw [stackTrace, hip, hframe, hcallers]
    rfl
  obtain ⟨rfl, rfl⟩ : ip = m.frame.ip ∧ calls = { m with ip := m.frame.ip }.stackTrace := by
    rw [← htrace, ← hip]
    cases stop with
    | fault _ | malformed _ =>
      cases hfailure
      exact ⟨rfl, rfl⟩
    | outOfRange | unwritable => cases hfailure
  exact ⟨m, stop, hm, hs, hframe, hcallers, rfl, Nat.not_le.mp (of_decide_eq_false hf),
    h.lists rfl _⟩

/-- The error that a run ends in, if it does so within `fuel` steps. -/
def fails? (m : Machine) (fuel : Nat) : Option Failure :=
  match m.run? fuel with
  | some (.error f, _) => some f
  | _ => none

private theorem exists_of_fails? {fuel : Nat} {f : Failure} (h : m.fails? fuel = some f) :
    ∃ m', m.run? fuel = some (.error f, m') := by
  unfold fails? at h
  split at h
  · rename_i f' m' hr
    cases h
    exact ⟨m', hr⟩
  · cases h

/-- A function that is called by another one negates a truth value. -/
theorem fault_shows_calls_nested :
    let inner : Prototype :=
      { id := 0, code := #[Opcode.pushTrue.code, Opcode.minus.code], name := some "g" }
    let outer : Prototype :=
      { id := 1, code := #[Opcode.closure.code, 0, 0, 0, Opcode.call.code, 0], name := some "f" }
    let m₀ := new #[Opcode.pushNull.code, Opcode.closure.code, 0, 1, 0, Opcode.call.code, 0]
      #[.function inner, .function outer] { size := 0 }
    let calls : List Call := [⟨some "g", some (.int 1)⟩, ⟨some "f", some (.int 4)⟩,
      ⟨some "<main>", some (.int 5)⟩]
    ∃ m m' stop, m₀.run? 7 = some (.error (.fault (.negation .boolean) 1 calls), m') ∧
      MachineM.step m = .error stop m' ∧ m'.callers = m.callers ∧ 1 = m.frame.ip ∧
      ListsCalls m₀ m 1 calls := by
  intro inner outer m₀ calls
  have hfails : m₀.fails? 7 = some (.fault (.negation .boolean) 1 calls) := by decide +kernel
  obtain ⟨m', hr⟩ := exists_of_fails? hfails
  obtain ⟨m, stop, -, hs, -, hcallers, hip, -, hlists⟩ := fault_shows_calls _ _ _ _ _ _ hr
  exact ⟨m, m', stop, hr, hs, hcallers, hip, hlists⟩

end Machine

end ClosureVM
