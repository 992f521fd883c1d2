import ClosureVM.Proofs.Machine.Runs

/-! What the steps of a machine do to its frames: the innermost one moves forward in its code, a
new one is put in front of it, or it is dropped. -/
namespace ClosureVM

/-- A computation that leaves the calls as they are, whether it succeeds or stops. -/
structure SameCalls {α : Type} (x : MachineM α) : Prop where
  calls {m m' : Machine} {a : α} : x m = .ok a m' → m'.frame = m.frame ∧ m'.callers = m.callers
  stopped {m m' : Machine} {s : Stop} : x m = .error s m' →
    m'.frame = m.frame ∧ m'.callers = m.callers

namespace SameCalls

variable {α β : Type}

theorem bind {x : MachineM α} {f : α → MachineM β} (hx : SameCalls x)
    (hf : ∀ a, SameCalls (f a)) : SameCalls (x >>= f) where
  calls h := by
    obtain ⟨a, m₁, h₁, h₂⟩ := EStateM.bind_eq_ok.mp h
    have hm₁ := hx.calls h₁
    have hm₂ := (hf a).calls h₂
    exact ⟨hm₂.1.trans hm₁.1, hm₂.2.trans hm₁.2⟩
  stopped h := by
    obtain h | ⟨a, m₁, h₁, h₂⟩ := EStateM.bind_eq_error.mp h
    · exact hx.stopped h
    · have hm₁ := hx.calls h₁
      have hm₂ := (hf a).stopped h₂
      exact ⟨hm₂.1.trans hm₁.1, hm₂.2.trans hm₁.2⟩

theorem pure (a : α) : SameCalls (Pure.pure a : MachineM α) where
  calls h := by
    cases h
    exact ⟨rfl, rfl⟩
  stopped h := by cases h

theorem throw (s : Stop) : SameCalls (throwThe Stop s : MachineM α) where
  calls h := by cases h
  stopped h := by
    cases h
    exact ⟨rfl, rfl⟩

theorem get : SameCalls (MonadState.get : MachineM Machine) where
  calls h := by
    cases h
    exact ⟨rfl, rfl⟩
  stopped h := by cases h

theorem modify {f : Machine → Machine}
    (hf : ∀ m, (f m).frame = m.frame ∧ (f m).callers = m.callers) :
    SameCalls (modifyThe Machine f : MachineM PUnit) where
  calls h := by
    cases h
    exact hf _
  stopped h := by cases h

theorem need : (a : Option α) → SameCalls (MachineM.need a)
  | none => throw _
  | some a => pure a

theorem check : (r : Except Fault α) → SameCalls (MachineM.check r)
  | .error _ => throw _
  | .ok a => pure a

theorem ofExcept : (r : Except Stop α) → SameCalls (MachineM.ofExcept r)
  | .error _ => throw _
  | .ok a => pure a

theorem allocate : SameCalls MachineM.allocate where
  calls h := by
    cases h
    exact ⟨rfl, rfl⟩
  stopped h := by cases h

theorem write (line : Output) : SameCalls (MachineM.write line) := modify fun _ => ⟨rfl, rfl⟩

theorem sp : SameCalls MachineM.sp := get.bind fun _ => pure _

theorem setSp (sp : Int) : SameCalls (MachineM.setSp sp) := modify fun _ => ⟨rfl, rfl⟩

theorem slot (i : Int) : SameCalls (MachineM.slot i) := get.bind fun _ => need _

theorem setSlot (i : Int) (v : Value) : SameCalls (MachineM.setSlot i v) :=
  get.bind fun _ => (need _).bind fun _ => modify fun _ => ⟨rfl, rfl⟩

theorem push (v : Value) : SameCalls (MachineM.push v) := by
  refine sp.bind fun _ => get.bind fun m => ?_
  split
  · exact (throw _).bind fun _ => (setSlot _ _).bind fun _ => setSp _
  · exact (setSlot _ _).bind fun _ => setSp _

theorem pop : SameCalls MachineM.pop := by
  refine sp.bind fun _ => ?_
  split
  · exact (throw _).bind fun _ => (setSp _).bind fun _ => slot _
  · exact (setSp _).bind fun _ => slot _

theorem top (n : Int) : SameCalls (MachineM.top n) :=
  sp.bind fun _ => get.bind fun _ => pure _

theorem popMany (n : Nat) : SameCalls (MachineM.popMany n) :=
  (top _).bind fun _ => sp.bind fun _ => (setSp _).bind fun _ => pure _

theorem clear (i : Int) (n : Nat) : SameCalls (MachineM.clear i n) := by
  induction n generalizing i with
  | zero => exact pure _
  | succ n ih => exact (setSlot _ _).bind fun _ => ih _

theorem forM {f : α → MachineM PUnit} (hf : ∀ a, SameCalls (f a)) :
    (l : List α) → SameCalls (l.forM f)
  | [] => pure _
  | a :: l => (hf a).bind fun _ => forM hf l

theorem callBuiltin (b : Builtin) (n : Int) : SameCalls (MachineM.callBuiltin b n) :=
  (top n).bind fun _ => allocate.bind fun _ => (check _).bind fun _ =>
    (forM (fun _ => write _) _).bind fun _ => sp.bind fun _ => (setSp _).bind fun _ => push _

theorem readEntries (i : Int) (entries : Entries) (n : Nat) :
    SameCalls (MachineM.readEntries i entries n) := by
  induction n generalizing i entries with
  | zero => exact pure _
  | succ n ih =>
    exact (slot _).bind fun _ => (slot _).bind fun _ => (check _).bind fun _ => ih _ _

theorem makeArray (n : Nat) : SameCalls (MachineM.makeArray n) :=
  (popMany n).bind fun _ => allocate.bind fun _ => push _

theorem makeHash (n : Nat) : SameCalls (MachineM.makeHash n) :=
  sp.bind fun _ => (readEntries _ _ _).bind fun _ => (setSp _).bind fun _ =>
    allocate.bind fun _ => push _

theorem makeClosure (a n : Nat) : SameCalls (MachineM.makeClosure a n) := by
  refine get.bind fun _ => (need _).bind fun v => ?_
  split
  · exact (popMany n).bind fun _ => allocate.bind fun _ => push _
  · exact throw _

/-- An instruction that neither jumps, calls nor returns. -/
theorem execute {op : Opcode} (hp : op.isPlain) (hc : op ≠ .call) (ha : op.advances = true)
    (a b : Nat) : SameCalls (MachineM.execute op a b) := by
  cases op with
  | jump | jumpNotTruthy => cases hp
  | returnValue | returnNull => cases ha
  | call => exact absurd rfl hc
  | constant => exact get.bind fun _ => (need _).bind fun _ => push _
  | add | sub | mul | div =>
    exact pop.bind fun _ => pop.bind fun _ => (ofExcept _).bind fun _ => push _
  | equal | notEqual | greaterThan =>
    exact pop.bind fun _ => pop.bind fun _ => (check _).bind fun _ => push _
  | pop =>
    exact pop.bind fun _ => modify fun m => by split <;> exact ⟨rfl, rfl⟩
  | pushTrue | pushFalse | pushNull => exact push _
  | bang => exact pop.bind fun _ => push _
  | minus => exact pop.bind fun _ => (ofExcept _).bind fun _ => push _
  | setGlobal =>
    refine pop.bind fun _ => get.bind fun _ => ?_
    split
    · exact (throw _).bind fun _ => modify fun _ => ⟨rfl, rfl⟩
    · exact modify fun _ => ⟨rfl, rfl⟩
  | getGlobal => exact get.bind fun _ => (need _).bind fun _ => push _
  | setLocal => exact pop.bind fun _ => get.bind fun _ => setSlot _ _
  | getLocal => exact get.bind fun _ => (slot _).bind fun _ => push _
  | getBuiltin =>
    unfold MachineM.execute
    dsimp only
    split
    · exact push _
    · exact throw _
  | getFree => exact get.bind fun _ => (need _).bind fun _ => push _
  | currentClosure => exact get.bind fun _ => push _
  | array => exact makeArray a
  | hash => exact makeHash a
  | index =>
    exact pop.bind fun _ => pop.bind fun _ => (check _).bind fun _ => push _
  | closure => exact makeClosure a b

end SameCalls

/-- What a step does to the frames. The frame of a caller waits behind its call, and goes on from
there. -/
inductive Machine.Advances (m m' : Machine) : Prop
  | onward {ip : Nat} : m.frame.ip < ip → m'.frame = { m.frame with ip } →
    m'.callers = m.callers → Advances m m'
  | call {ip : Nat} : m.frame.ip < ip → m'.frame.ip = 0 →
    m'.callers = { m.frame with ip } :: m.callers → Advances m m'
  | back : m.callers = m'.frame :: m'.callers → Advances m m'

namespace MachineM

variable {m m' : Machine}

/-- A step needs an instruction. -/
theorem step_of_none (h : m.frame.code[m.frame.ip]? = none) :
    step m = .error .outOfRange { m with ip := m.frame.ip } := by
  simp [step, h]

/-- A step that has been counted executes the instruction that it finds. -/
theorem step_of_count {i : Instruction} (hi : m.frame.code.fetch? m.frame.ip = some i)
    (hc : countStep { m with ip := m.frame.ip } = .ok () m') :
    step m = execute i.op (i.operands.getD 0 0) (i.operands.getD 1 0)
      ((m'.traced i).advanced i.op) := by
  rw [step_eq hi, EStateM.bind_ok hc, afterCount_apply]

theorem need_eq_ok {α : Type} {o : Option α} {a : α} (h : need o m = .ok a m') :
    m' = m ∧ o = some a := by
  cases o with
  | none => cases h
  | some b =>
    cases h
    exact ⟨rfl, rfl⟩

theorem slot_eq_ok {i : Int} {v : Value} (h : slot i m = .ok v m') :
    m' = m ∧ m.stack.at? i = some v := by
  unfold slot at h
  obtain ⟨m₁, m₂, ⟨⟩, h⟩ := EStateM.bind_eq_ok.mp h
  exact need_eq_ok h

theorem setSlot_eq_ok {i : Int} {v : Value} {u : Unit} (h : setSlot i v m = .ok u m') :
    ∃ j, place? m.stack.size i = some j ∧ m' = { m with stack := m.stack.set j v } := by
  unfold setSlot at h
  obtain ⟨m₁, m₂, ⟨⟩, h⟩ := EStateM.bind_eq_ok.mp h
  obtain ⟨j, m₃, hneed, ⟨⟩⟩ := EStateM.bind_eq_ok.mp h
  obtain ⟨rfl, hj⟩ := need_eq_ok hneed
  exact ⟨j, hj, rfl⟩

theorem pop_eq_ok {v : Value} (h : pop m = .ok v m') :
    m' = { m with sp := m.sp - 1 } ∧ m.stack.at? (m.sp - 1) = some v := by
  unfold pop at h
  obtain ⟨sp, m₁, ⟨⟩, h⟩ := EStateM.bind_eq_ok.mp h
  split at h
  · cases h
  obtain ⟨u, m₂, ⟨⟩, h⟩ := EStateM.bind_eq_ok.mp h
  exact slot_eq_ok h

private theorem pushFrame_eq_ok {fr : Frame} (h : pushFrame fr m = .ok () m') :
    m'.frame = fr ∧ m'.callers = m.frame :: m.callers := by
  unfold pushFrame at h
  rw [EStateM.bind_ok (EStateM.get_apply m)] at h
  split at h
  · cases h
  · cases h
    exact ⟨rfl, rfl⟩

/-- A call of a closure puts its arguments and locals on top of the stack, where there is room for
them. -/
theorem callClosure_eq_ok {id : Nat} {proto : Prototype} {free : List Value} {n : Int}
    (h : callClosure id proto free n m = .ok () m') :
    m'.frame = { id, proto, free, base := m.sp - n } ∧ m'.callers = m.frame :: m.callers ∧
      m'.sp = m.sp - n + proto.numLocals ∧ m'.sp ≤ m.limits.stackSize := by
  unfold callClosure at h
  split at h
  · cases h
  obtain ⟨sp, m₁, ⟨⟩, h⟩ := EStateM.bind_eq_ok.mp h
  obtain ⟨m₂, m₃, ⟨⟩, h⟩ := EStateM.bind_eq_ok.mp h
  split at h
  · cases h
  rename_i hroom
  obtain ⟨_, m₄, hpush, h⟩ := EStateM.bind_eq_ok.mp h
  obtain ⟨hframe, hcallers⟩ := pushFrame_eq_ok hpush
  obtain ⟨hframe', hcallers'⟩ := ((SameCalls.clear _ _).bind fun _ => SameCalls.setSp _).calls h
  obtain ⟨_, m₅, -, ⟨⟩⟩ := EStateM.bind_eq_ok.mp h
  exact ⟨hframe'.trans hframe, hcallers'.trans hcallers, rfl, Int.not_lt.mp hroom⟩

/-- A call finds what it calls on the stack, a closure or a builtin. -/
theorem call_cases {n : Int} (h : call n m = .ok () m') :
    ∃ callee, m.stack.at? (m.sp - 1 - n) = some callee ∧
      ((∃ id proto free, callee = .closure id proto free ∧
          callClosure id proto free n m = .ok () m') ∨
        ∃ b, callee = .builtin b ∧ callBuiltin b n m = .ok () m') := by
  unfold call at h
  obtain ⟨sp, m₁, ⟨⟩, h⟩ := EStateM.bind_eq_ok.mp h
  obtain ⟨callee, m₂, hslot, h⟩ := EStateM.bind_eq_ok.mp h
  obtain ⟨rfl, hv⟩ := slot_eq_ok hslot
  refine ⟨callee, hv, ?_⟩
  cases callee with
  | closure id proto free => exact .inl ⟨id, proto, free, rfl, h⟩
  | builtin b => exact .inr ⟨b, rfl, h⟩
  | _ => cases h

theorem call_eq_ok {n : Int} (h : call n m = .ok () m') :
    (m'.frame = m.frame ∧ m'.callers = m.callers) ∨
      (m'.frame.ip = 0 ∧ m'.callers = m.frame :: m.callers) := by
  obtain ⟨_, -, ⟨id, proto, free, -, h⟩ | ⟨b, -, h⟩⟩ := call_cases h
  · obtain ⟨hframe, hcallers, -⟩ := callClosure_eq_ok h
    rw [hframe]
    exact .inr ⟨rfl, hcallers⟩
  · exact .inl ((SameCalls.callBuiltin b n).calls h)

theorem leave_eq_ok {v : Value} (h : leave v m = .ok () m') :
    m.callers = m'.frame :: m'.callers := by
  unfold leave at h
  obtain ⟨fr, m₁, hpop, h⟩ := EStateM.bind_eq_ok.mp h
  have hrest := ((SameCalls.setSp _).bind fun _ => SameCalls.push _).calls h
  rw [hrest.1, hrest.2]
  unfold popFrame at hpop
  rw [EStateM.bind_ok (EStateM.get_apply m)] at hpop
  cases hcallers : m.callers with
  | nil =>
    rw [hcallers] at hpop
    cases hpop
  | cons fr callers =>
    rw [hcallers] at hpop
    cases hpop
    rfl

/-- A return drops its frame. -/
theorem execute_return_eq_ok {op : Opcode} (hp : op.isPlain) (ha : op.advances = false) {a b : Nat}
    (h : execute op a b m = .ok () m') : m.callers = m'.frame :: m'.callers := by
  cases op with
  | returnNull => exact leave_eq_ok h
  | returnValue =>
    obtain ⟨v, m₁, hpop, h⟩ := EStateM.bind_eq_ok.mp h
    rw [← (SameCalls.pop.calls hpop).2]
    exact leave_eq_ok h
  | jump => cases hp
  | _ => cases ha

/-- An instruction that moves on leaves the calls as they are, or makes one. -/
theorem execute_advances_eq_ok {op : Opcode} (hp : op.isPlain) (ha : op.advances = true) {a b : Nat}
    (h : execute op a b m = .ok () m') :
    (m'.frame = m.frame ∧ m'.callers = m.callers) ∨
      (m'.frame.ip = 0 ∧ m'.callers = m.frame :: m.callers) := by
  by_cases hcall : op = .call
  · rw [hcall] at h
    exact call_eq_ok h
  · exact .inl ((SameCalls.execute hp hcall ha a b).calls h)

end MachineM

/-- A successful step executes its instruction in a machine with the same frames, but for the
place of the next instruction. -/
theorem Represents.step_eq_ok {m m' : Machine} {c : Config} (hr : Represents m c) {i : Instruction}
    (hi : m.frame.code.fetch? m.frame.ip = some i) (h : MachineM.step m = .ok () m') :
    ∃ m₁, m₁.frame = m.frame ∧ m₁.callers = m.callers ∧
      MachineM.execute i.op (i.operands.getD 0 0) (i.operands.getD 1 0)
        (if i.op.advances then
          { m₁ with frame := { m₁.frame with ip := m₁.frame.ip + i.size } } else m₁) =
        .ok () m' := by
  obtain ⟨steps, hok | ⟨max, -, herr⟩⟩ := MachineM.countStep_cases { m with ip := m.frame.ip }
  · obtain ⟨m₁, -, hframe, hcallers, he⟩ := (hr.count m.frame.ip steps).afterCount i
    rw [MachineM.step_eq hi, EStateM.bind_ok hok, he] at h
    exact ⟨m₁, hframe, hcallers, h⟩
  · rw [MachineM.step_eq hi, EStateM.bind_apply, herr] at h
    cases h

/-- A machine on laid out code only ever moves forward in it. -/
theorem Represents.advances {m m' : Machine} {c : Config} (hr : Represents m c)
    (hn : m.Next m') : m.Advances m' := by
  obtain ⟨hf, hs⟩ := hn
  have hc : c.current.code ≠ [] := fun hc => by
    rw [hr.finished_iff.mpr hc] at hf
    cases hf
  have hfol := hr.current.follows
  cases hcode : c.current.code with
  | nil => exact absurd hcode hc
  | cons p rest =>
    rw [hcode] at hfol
    cases p with
    | ins i =>
      obtain ⟨hi, hp, -⟩ := hfol.of_ins
      obtain ⟨m₁, hframe, hcallers, he⟩ := hr.step_eq_ok hi hs
      have hlt : m.frame.ip < m.frame.ip + i.size := by
        have := i.op.size_pos
        simp only [Instruction.size]
        omega
      cases ha : i.op.advances with
      | false =>
        rw [ha] at he
        refine .back ?_
        rw [← hcallers]
        exact MachineM.execute_return_eq_ok hp ha he
      | true =>
        rw [ha, if_pos rfl] at he
        obtain ⟨hf', hc'⟩ | ⟨hf', hc'⟩ := MachineM.execute_advances_eq_ok hp ha he
        · exact .onward hlt (by rw [hf', hframe]) (hc'.trans hcallers)
        · exact .call hlt hf' (by rw [hc', hframe, hcallers])
    | branch t e =>
      obtain ⟨target, hi, hl, -⟩ := hfol.of_branch
      obtain ⟨m₁, hframe, hcallers, he⟩ := hr.step_eq_ok hi hs
      obtain ⟨v, m₂, hpop, he⟩ := EStateM.bind_eq_ok.mp he
      obtain ⟨hf', hc'⟩ := SameCalls.pop.calls hpop
      have hframe' : m₂.frame = { m.frame with ip := m.frame.ip + 3 } := by
        rw [hf', ← hframe]
        rfl
      cases ht : v.truthy with
      | true =>
        rw [ht] at he
        cases he
        exact .onward (by omega) hframe' (hc'.trans hcallers)
      | false =>
        rw [ht] at he
        have hm' : m' = { m₂ with frame := { m₂.frame with ip := target } } := by
          cases he
          rfl
        have hlt : m.frame.ip < target := by omega
        subst hm'
        exact .onward hlt (by rw [hframe']) (hc'.trans hcallers)
    | skip =>
      obtain ⟨target, hi, hl, -⟩ := hfol.of_skip
      obtain ⟨m₁, hframe, hcallers, he⟩ := hr.step_eq_ok hi hs
      have hm' : m' = { m₁ with frame := { m₁.frame with ip := target } } := by
        cases he
        rfl
      have hlt : m.frame.ip < target := by omega
      subst hm'
      exact .onward hlt (by rw [hframe]) hcallers

end ClosureVM
