import ClosureVM.Proofs.Machine.Contents
import ClosureVM.Proofs.Machine.Frames

/-! What an instruction can change in a machine, whatever code it is part of. -/
namespace ClosureVM

section Reading

variable {Q : Prototype → Prop} {p : Value → Prop} {s : Slots}

theorem Slots.forall_set (h : ∀ j w, s.get? j = some w → p w) (i : Nat) {v : Value} (hv : p v) :
    ∀ j w, (s.set i v).get? j = some w → p w := by
  intro j w hw
  rw [get?_set] at hw
  split at hw
  · cases hw
    exact hv
  · exact h j w hw

theorem Slots.forall_at? (h : ∀ j w, s.get? j = some w → p w) {i : Int} {v : Value}
    (hv : s.at? i = some v) : p v := by
  obtain ⟨j, -, hj⟩ := Option.bind_eq_some_iff.mp hv
  exact h j v hj

theorem Slots.forall_slice (h : ∀ j w, s.get? j = some w → p w) (lo hi : Int) :
    ∀ v ∈ s.slice lo hi, p v := by
  intro v hv
  obtain ⟨i, hi, rfl⟩ := List.mem_map.mp hv
  apply h i
  have hlt : i < s.size := by
    have hmem := (List.mem_range'_1.mp hi).2
    unfold bound at hmem
    omega
  rw [get?, if_pos hlt]

theorem Slots.Made.set (h : s.Made Q) (i : Nat) {v : Value} (hv : v.Made Q) : (s.set i v).Made Q :=
  forall_set h i hv

theorem Slots.Made.at? (h : s.Made Q) {i : Int} {v : Value} (hv : s.at? i = some v) : v.Made Q :=
  forall_at? h hv

theorem Slots.Made.slice (h : s.Made Q) (lo hi : Int) : ∀ v ∈ s.slice lo hi, v.Made Q :=
  forall_slice h lo hi

end Reading

/-- A stop that has nothing to do with how the code is written. -/
def Stop.Sensible : Stop → Prop
  | .malformed _ => False
  | _ => True

theorem checkWord_sensible {n : Int} {s : Stop} (h : checkWord n = .error s) : s.Sensible := by
  unfold checkWord at h
  split at h
  · cases h
  · split at h <;> cases h <;> trivial

private theorem integerOperation_sensible {op : Opcode} {a b : Int} {s : Stop}
    (h : integerOperation op a b = .error s) : s.Sensible := by
  unfold integerOperation at h
  split at h
  · exact checkWord_sensible h
  · exact checkWord_sensible h
  · exact checkWord_sensible h
  · split at h
    · cases h
      trivial
    · exact checkWord_sensible h
  · cases h
    trivial

private theorem Value.negate_sensible {v : Value} {s : Stop} (h : v.negate = .error s) :
    s.Sensible := by
  unfold negate at h
  split at h
  · rename_i n
    cases hc : checkWord (-n) with
    | ok k =>
      rw [hc] at h
      cases h
    | error s' =>
      rw [hc] at h
      cases h
      exact checkWord_sensible hc
  · cases h
    trivial

private theorem Value.arithmetic_sensible {op : Opcode} {a b : Value} {s : Stop}
    (h : Value.arithmetic op a b = .error s) : s.Sensible := by
  unfold arithmetic at h
  split at h
  · rename_i m n
    cases hc : integerOperation op m n with
    | ok k =>
      rw [hc] at h
      cases h
    | error s' =>
      rw [hc] at h
      cases h
      exact integerOperation_sensible hc
  · split at h
    · cases h
    · cases h
      trivial
  · cases h
    trivial

namespace Machine

/-- All functions in a machine have the property `Q`. -/
structure Holds (Q : Prototype → Prop) (m : Machine) : Prop where
  constants : ∀ v ∈ m.constants, v.Made Q
  globals : m.globals.Made Q
  stack : m.stack.Made Q
  lastPopped : m.lastPopped.Made Q
  frames : ∀ fr ∈ m.frame :: m.callers, fr.closure.Made Q

/-- Where the calls stand, and what has been written, is no matter of what functions there are. -/
theorem Holds.moved {Q : Prototype → Prop} {m : Machine} (h : m.Holds Q) (ip steps : Nat)
    (output : Array Output) (target : Nat) :
    Holds Q { m with ip, steps, output, frame := { m.frame with ip := target } } :=
  ⟨h.constants, h.globals, h.stack, h.lastPopped,
    List.forall_mem_cons.mpr (List.forall_mem_cons.mp h.frames)⟩

theorem Holds.frame {Q : Prototype → Prop} {m : Machine} (h : m.Holds Q) : Q m.frame.proto := by
  cases h.frames m.frame List.mem_cons_self with
  | closure hq _ => exact hq

theorem Holds.new {Q : Prototype → Prop} {code : Code} {constants : Array Value} {globals : Slots}
    (hq : Q { id := constants.size, code, name := some "<main>" })
    (hc : ∀ v ∈ constants, v.Made Q) (hg : globals.Made Q) (limits : Limits) (tracing : Bool)
    (fresh : Nat) : (new code constants globals limits tracing fresh).Holds Q where
  constants := hc
  globals := hg
  stack := by
    intro i v hv
    obtain ⟨-, rfl⟩ := Slots.get?_eq_some hv
    exact .null
  lastPopped := .null
  frames := by
    intro fr hfr
    obtain rfl := List.mem_singleton.mp hfr
    exact .closure hq (List.forall_mem_nil _)

theorem holds_true (m : Machine) : m.Holds fun _ => True where
  constants v _ := v.made_true
  globals _ v _ := v.made_true
  stack _ v _ := v.made_true
  lastPopped := m.lastPopped.made_true
  frames fr _ := fr.closure.made_true

/-- What is changed at a time, by instructions other than jumps. -/
inductive Change (Q : Prototype → Prop) (m : Machine) : Machine → Prop
  | sp (sp : Int) : Change Q m { m with sp }
  | slot (i : Nat) {v : Value} : v.Made Q → Change Q m { m with stack := m.stack.set i v }
  | global (i : Nat) {v : Value} : v.Made Q → Change Q m { m with globals := m.globals.set i v }
  | lastPopped {v : Value} : v.Made Q → Change Q m { m with lastPopped := v }
  | fresh (fresh : Nat) : Change Q m { m with fresh }
  | puts (text : String) : Change Q m { m with output := m.output.push (.puts text) }
  | enter {fr : Frame} : fr.closure.Made Q → fr.ip = 0 → m.depth < m.limits.maxFrames →
    Change Q m { m with frame := fr, callers := m.frame :: m.callers }
  | leave {fr : Frame} {callers : List Frame} : m.callers = fr :: callers →
    Change Q m { m with frame := fr, callers }

/-- One change after the other. -/
def Changes (Q : Prototype → Prop) : Machine → Machine → Prop := Relation.ReflTransGen (Change Q)

variable {Q : Prototype → Prop} {m m' m'' : Machine}

theorem Changes.refl (m : Machine) : m.Changes Q m := Relation.ReflTransGen.refl

theorem Change.changes (h : m.Change Q m') : m.Changes Q m' := Relation.ReflTransGen.single h

theorem Changes.trans (h : m.Changes Q m') (h' : m'.Changes Q m'') : m.Changes Q m'' :=
  Relation.ReflTransGen.trans h h'

/-- What every single change preserves, they preserve together. -/
theorem Changes.preserve {I : Machine → Prop} (hI : ∀ m m', Change Q m m' → I m → I m')
    (h : m.Changes Q m') (hm : I m) : I m' := by
  induction h with
  | refl => exact hm
  | tail _ hc ih => exact hI _ _ hc ih

theorem Change.holds (h : m.Change Q m') (hm : m.Holds Q) : m'.Holds Q := by
  cases h with
  | sp | fresh | puts => exact ⟨hm.constants, hm.globals, hm.stack, hm.lastPopped, hm.frames⟩
  | slot i hv => exact ⟨hm.constants, hm.globals, hm.stack.set i hv, hm.lastPopped, hm.frames⟩
  | global i hv => exact ⟨hm.constants, hm.globals.set i hv, hm.stack, hm.lastPopped, hm.frames⟩
  | lastPopped hv => exact ⟨hm.constants, hm.globals, hm.stack, hv, hm.frames⟩
  | enter hfr _ _ =>
    exact ⟨hm.constants, hm.globals, hm.stack, hm.lastPopped,
      List.forall_mem_cons.mpr ⟨hfr, hm.frames⟩⟩
  | leave hc =>
    have hframes := (List.forall_mem_cons.mp hm.frames).2
    rw [hc] at hframes
    exact ⟨hm.constants, hm.globals, hm.stack, hm.lastPopped, hframes⟩

theorem Changes.holds (h : m.Changes Q m') (hm : m.Holds Q) : m'.Holds Q :=
  h.preserve (fun _ _ hc => hc.holds) hm

end Machine

/-- In a machine whose functions have the property `Q`, the computation makes changes of the above
kind only, whether it succeeds or not; its result has the property `R`. -/
def Yields (Q : Prototype → Prop) {α : Type} (R : α → Prop) (x : MachineM α) : Prop :=
  ∀ m, m.Holds Q → match x m with
    | .ok a m' => m.Changes Q m' ∧ R a
    | .error s m' => m.Changes Q m' ∧ s.Sensible

namespace Yields

variable {Q : Prototype → Prop} {α β : Type} {R : α → Prop} {S : β → Prop}

theorem bind {x : MachineM α} {f : α → MachineM β} (hx : Yields Q R x)
    (hf : ∀ a, R a → Yields Q S (f a)) : Yields Q S (x >>= f) := by
  intro m hm
  have hfirst := hx m hm
  rw [EStateM.bind_apply]
  cases h : x m with
  | error s m₁ =>
    rw [h] at hfirst
    exact hfirst
  | ok a m₁ =>
    rw [h] at hfirst
    obtain ⟨hc, ha⟩ := hfirst
    have hrest := hf a ha m₁ (hc.holds hm)
    dsimp only
    cases h' : f a m₁ with
    | ok b m₂ =>
      rw [h'] at hrest
      exact ⟨hc.trans hrest.1, hrest.2⟩
    | error s m₂ =>
      rw [h'] at hrest
      exact ⟨hc.trans hrest.1, hrest.2⟩

theorem pure {a : α} (ha : R a) : Yields Q R (Pure.pure a : MachineM α) := fun m _ => ⟨.refl m, ha⟩

theorem throw {s : Stop} (hs : s.Sensible) : Yields Q R (throwThe Stop s : MachineM α) :=
  fun m _ => ⟨.refl m, hs⟩

/-- What comes behind an error does not matter. -/
theorem fault_bind {f : Fault} {k : α → MachineM β} : Yields Q S (MachineM.fault f >>= k) :=
  fun m _ => ⟨.refl m, trivial⟩

/-- What is read from a machine is what it holds. -/
theorem get {k : Machine → MachineM β} (hk : ∀ m, m.Holds Q → Yields Q S (k m)) :
    Yields Q S (MonadState.get >>= k) := fun m hm => hk m hm m hm

theorem modify {f : Machine → Machine} (hf : ∀ m, Machine.Change Q m (f m)) :
    Yields Q (fun _ => True) (modifyThe Machine f : MachineM PUnit) :=
  fun m _ => ⟨(hf m).changes, trivial⟩

theorem need {o : Option α} (ho : ∀ a, o = some a → R a) : Yields Q R (MachineM.need o) := by
  cases o with
  | none => exact throw trivial
  | some a => exact pure (ho a rfl)

theorem check {r : Except Fault α} (hr : ∀ a, r = .ok a → R a) : Yields Q R (MachineM.check r) := by
  cases r with
  | error f => exact throw trivial
  | ok a => exact pure (hr a rfl)

theorem ofExcept {r : Except Stop α} (hr : ∀ a, r = .ok a → R a)
    (hs : ∀ s, r = .error s → s.Sensible) : Yields Q R (MachineM.ofExcept r) := by
  cases r with
  | error s => exact throw (hs s rfl)
  | ok a => exact pure (hr a rfl)

theorem allocate : Yields Q (fun _ => True) MachineM.allocate :=
  fun m _ => ⟨(Machine.Change.fresh (m.fresh + 1)).changes, trivial⟩

theorem sp : Yields Q (fun _ => True) MachineM.sp := get fun _ _ => pure trivial

theorem setSp (sp : Int) : Yields Q (fun _ => True) (MachineM.setSp sp) := modify fun _ => .sp sp

theorem slot (i : Int) : Yields Q (Value.Made Q) (MachineM.slot i) :=
  get fun _ hm => need fun _ hv => hm.stack.at? hv

theorem setSlot (i : Int) {v : Value} (hv : v.Made Q) :
    Yields Q (fun _ => True) (MachineM.setSlot i v) :=
  get fun _ _ => (need (R := fun _ => True) fun _ _ => trivial).bind fun i _ =>
    modify fun _ => .slot i hv

theorem push {v : Value} (hv : v.Made Q) : Yields Q (fun _ => True) (MachineM.push v) := by
  refine sp.bind fun sp _ => get fun m _ => ?_
  split
  · exact fault_bind
  · exact (setSlot sp hv).bind fun _ _ => setSp _

theorem pop : Yields Q (Value.Made Q) MachineM.pop := by
  refine sp.bind fun sp _ => ?_
  split
  · exact fault_bind
  · exact (setSp _).bind fun _ _ => slot _

theorem top (n : Int) : Yields Q (fun values => ∀ v ∈ values, v.Made Q) (MachineM.top n) :=
  sp.bind fun _ _ => get fun _ hm => pure (hm.stack.slice _ _)

theorem popMany (n : Nat) : Yields Q (fun values => ∀ v ∈ values, v.Made Q) (MachineM.popMany n) :=
  (top _).bind fun _ hv => sp.bind fun _ _ => (setSp _).bind fun _ _ => pure hv

theorem clear (i : Int) (n : Nat) : Yields Q (fun _ => True) (MachineM.clear i n) := by
  induction n generalizing i with
  | zero => exact pure trivial
  | succ n ih => exact (setSlot _ .null).bind fun _ _ => ih _

theorem forM {γ : Type} {f : γ → MachineM PUnit} (hf : ∀ a, Yields Q (fun _ => True) (f a))
    (l : List γ) : Yields Q (fun _ => True) (l.forM f) := by
  induction l with
  | nil => exact pure trivial
  | cons a l ih => exact (hf a).bind fun _ _ => ih

theorem pushFrame {fr : Frame} (hfr : fr.closure.Made Q) (hip : fr.ip = 0) :
    Yields Q (fun _ => True) (MachineM.pushFrame fr) := by
  intro m hm
  unfold MachineM.pushFrame
  rw [EStateM.bind_ok (EStateM.get_apply m)]
  by_cases hd : m.limits.maxFrames ≤ m.depth
  · rw [if_pos hd]
    exact ⟨.refl m, trivial⟩
  · rw [if_neg hd]
    exact ⟨(Machine.Change.enter hfr hip (Int.not_le.mp hd)).changes, trivial⟩

theorem popFrame : Yields Q (fun _ => True) MachineM.popFrame := by
  intro m hm
  unfold MachineM.popFrame
  rw [EStateM.bind_ok (EStateM.get_apply m)]
  cases hc : m.callers with
  | nil => exact ⟨.refl m, trivial⟩
  | cons fr callers => exact ⟨(Machine.Change.leave hc).changes, trivial⟩

theorem callClosure {id : Nat} {proto : Prototype} {free : List Value}
    (hv : (Value.closure id proto free).Made Q) (n : Int) :
    Yields Q (fun _ => True) (MachineM.callClosure id proto free n) := by
  unfold MachineM.callClosure
  split
  · exact fault_bind
  refine sp.bind fun sp _ => get fun m _ => ?_
  split
  · exact fault_bind
  · exact (pushFrame hv rfl).bind fun _ _ => (clear _ _).bind fun _ _ => setSp _

theorem callBuiltin (b : Builtin) (n : Int) :
    Yields Q (fun _ => True) (MachineM.callBuiltin b n) := by
  refine (top n).bind fun args hargs => allocate.bind fun id _ => ?_
  refine (check (R := fun reply => reply.value.Made Q) fun reply hr => b.apply_made hargs hr).bind
    fun reply hreply => ?_
  refine (forM (fun text => modify fun _ => .puts text) _).bind fun _ _ => ?_
  exact sp.bind fun _ _ => (setSp _).bind fun _ _ => push hreply

theorem call (n : Int) : Yields Q (fun _ => True) (MachineM.call n) := by
  refine sp.bind fun _ _ => (slot _).bind fun v hv => ?_
  cases v with
  | closure id proto free => exact callClosure hv n
  | builtin b => exact callBuiltin b n
  | _ => exact throw trivial

theorem leave {v : Value} (hv : v.Made Q) : Yields Q (fun _ => True) (MachineM.leave v) :=
  popFrame.bind fun _ _ => (setSp _).bind fun _ _ => push hv

theorem readEntries (i : Int) {entries : Entries} (he : ∀ e ∈ entries, e.2.Made Q) (n : Nat) :
    Yields Q (fun result : Entries => ∀ e ∈ result, e.2.Made Q)
      (MachineM.readEntries i entries n) := by
  induction n generalizing i entries with
  | zero => exact pure he
  | succ n ih =>
    refine (slot _).bind fun k _ => (slot _).bind fun v hv => ?_
    refine (check (R := fun _ => True) fun _ _ => trivial).bind fun key _ => ih _ fun e hmem => ?_
    obtain rfl | hmem := Entries.mem_insert hmem
    · exact hv
    · exact he e hmem

theorem makeArray (n : Nat) : Yields Q (fun _ => True) (MachineM.makeArray n) :=
  (popMany n).bind fun _ hv => allocate.bind fun _ _ => push (.array hv)

theorem makeHash (n : Nat) : Yields Q (fun _ => True) (MachineM.makeHash n) :=
  sp.bind fun _ _ => (readEntries _ (List.forall_mem_nil _) _).bind fun _ he =>
    (setSp _).bind fun _ _ => allocate.bind fun _ _ => push (.hash he)

theorem makeClosure (a n : Nat) : Yields Q (fun _ => True) (MachineM.makeClosure a n) := by
  refine get fun m hm => ?_
  refine (need (R := Value.Made Q) fun v hv => hm.constants v (Array.mem_of_getElem? hv)).bind
    fun v hv => ?_
  cases hv with
  | function hq =>
    exact (popMany n).bind fun _ hfree => allocate.bind fun _ _ => push (.closure hq hfree)
  | _ => exact throw trivial

/-- An instruction that is no jump. -/
theorem execute {op : Opcode} (hp : op.isPlain) (a b : Nat) :
    Yields Q (fun _ => True) (MachineM.execute op a b) := by
  cases op with
  | jump | jumpNotTruthy => cases hp
  | constant =>
    exact get fun m hm => (need fun v hv => hm.constants v (Array.mem_of_getElem? hv)).bind
      fun _ hv => push hv
  | add | sub | mul | div =>
    exact pop.bind fun _ _ => pop.bind fun _ _ => (ofExcept (fun _ h => Value.made_arithmetic h)
      fun _ h => Value.arithmetic_sensible h).bind fun _ hv => push hv
  | equal | notEqual | greaterThan =>
    exact pop.bind fun _ _ => pop.bind fun _ _ =>
      (check (R := fun _ => True) fun _ _ => trivial).bind fun _ _ => push (.bool _)
  | pop =>
    refine pop.bind fun v hv m _ => ⟨?_, trivial⟩
    dsimp only
    split
    · exact (Machine.Change.lastPopped hv).changes
    · exact .refl m
  | pushTrue | pushFalse => exact push (.bool _)
  | pushNull => exact push .null
  | bang => exact pop.bind fun _ _ => push (.bool _)
  | minus =>
    exact pop.bind fun _ _ => (ofExcept (fun _ h => Value.made_negate h)
      fun _ h => Value.negate_sensible h).bind fun _ hv => push hv
  | setGlobal =>
    refine pop.bind fun v hv => get fun m _ => ?_
    split
    · exact fun m _ => ⟨.refl m, trivial⟩
    · exact modify fun _ => .global a hv
  | getGlobal =>
    exact get fun m hm => (need fun v hv => hm.globals a v hv).bind fun _ hv => push hv
  | setLocal => exact pop.bind fun _ hv => get fun _ _ => setSlot _ hv
  | getLocal => exact get fun _ _ => (slot _).bind fun _ hv => push hv
  | getBuiltin =>
    unfold MachineM.execute
    dsimp only
    split
    · exact push (.builtin _)
    · exact throw trivial
  | getFree =>
    refine get fun m hm => (need (R := Value.Made Q) fun v hv => ?_).bind fun _ hv => push hv
    cases hm.frames m.frame List.mem_cons_self with
    | closure _ hfree => exact hfree v (List.mem_of_getElem? hv)
  | currentClosure => exact get fun m hm => push (hm.frames m.frame List.mem_cons_self)
  | array => exact makeArray a
  | hash => exact makeHash a
  | index =>
    refine pop.bind fun _ _ => pop.bind fun left hleft => ?_
    exact (check (R := Value.Made Q) fun v hv => hleft.index (by rw [hv]; rfl)).bind
      fun _ hv => push hv
  | call => exact call a
  | returnValue => exact pop.bind fun _ hv => leave hv
  | returnNull => exact leave .null
  | closure => exact makeClosure a b

end Yields

/-- Whatever instruction is executed, it makes such changes, and ends then, stops for a reason that
is not in the code, or is a jump and goes to its target. -/
theorem MachineM.execute_changes {Q : Prototype → Prop} {m : Machine} (hm : m.Holds Q)
    (op : Opcode) (a b : Nat) :
    ∃ m', m.Changes Q m' ∧ (execute op a b m = .ok () m' ∨
      (op.isPlain = false ∧ m'.frame = m.frame ∧ m'.callers = m.callers ∧
        execute op a b m = .ok () { m' with frame := { m'.frame with ip := a } }) ∨
      ∃ s, s.Sensible ∧ execute op a b m = .error s m') := by
  by_cases hp : op.isPlain
  · have hx := Yields.execute hp a b m hm
    cases h : execute op a b m with
    | ok u m' =>
      rw [h] at hx
      exact ⟨m', hx.1, .inl rfl⟩
    | error s m' =>
      rw [h] at hx
      exact ⟨m', hx.1, .inr (.inr ⟨s, hx.2, rfl⟩)⟩
  · cases op with
    | jump => exact ⟨m, .refl m, .inr (.inl ⟨rfl, rfl, rfl, rfl⟩)⟩
    | jumpNotTruthy =>
      have hx := Yields.pop m hm
      cases h : pop m with
      | error s m' =>
        rw [h] at hx
        refine ⟨m', hx.1, .inr (.inr ⟨s, hx.2, ?_⟩)⟩
        rw [execute, EStateM.bind_apply, h]
      | ok v m' =>
        rw [h] at hx
        obtain ⟨hframe, hcallers⟩ := SameCalls.pop.calls h
        refine ⟨m', hx.1, ?_⟩
        rw [execute, EStateM.bind_ok h]
        cases v.truthy with
        | true => exact .inl rfl
        | false => exact .inr (.inl ⟨rfl, hframe, hcallers, rfl⟩)
    | _ => exact absurd rfl hp

end ClosureVM
