import ClosureVM.Proofs.Machine.Bounds
import ClosureVM.Proofs.Session.Safety
import ClosureVM.Proofs.Value.Words

/-! The integers in a machine are words, whatever code it runs. -/
namespace ClosureVM

/-- All integers in the places are words. -/
def Slots.Words (s : Slots) : Prop := ∀ i v, s.get? i = some v → v.Words

/-- All integers in a machine are words: among the constants, in the globals, in every place of the
stack, in what was popped last, and in what the running closures have captured. -/
structure Machine.Words (m : Machine) : Prop where
  constants : ∀ v ∈ m.constants, v.Words
  globals : m.globals.Words
  stack : m.stack.Words
  lastPopped : m.lastPopped.Words
  frames : ∀ fr ∈ m.frame :: m.callers, ∀ v ∈ fr.free, v.Words

theorem Slots.words_of_size (size : Nat) : Slots.Words { size } := by
  intro i v hv
  rw [← (get?_eq_some hv).2]
  exact Value.words_null

namespace Machine.Words

variable {m : Machine}

theorem new {constants : Array Value} {globals : Slots} (hc : ∀ v ∈ constants, v.Words)
    (hg : globals.Words) (code : Code) (limits : Limits) (tracing : Bool) (fresh : Nat) :
    (new code constants globals limits tracing fresh).Words where
  constants := hc
  globals := hg
  stack := Slots.words_of_size _
  lastPopped := Value.words_null
  frames := by
    intro fr hfr
    obtain rfl := List.mem_singleton.mp hfr
    exact List.forall_mem_nil _

theorem setSlot (h : m.Words) (i : Nat) {v : Value} (hv : v.Words) :
    Words { m with stack := m.stack.set i v } :=
  ⟨h.constants, h.globals, Slots.forall_set h.stack i hv, h.lastPopped, h.frames⟩

theorem setGlobal (h : m.Words) (i : Nat) {v : Value} (hv : v.Words) :
    Words { m with globals := m.globals.set i v } :=
  ⟨h.constants, Slots.forall_set h.globals i hv, h.stack, h.lastPopped, h.frames⟩

theorem setLastPopped (h : m.Words) {v : Value} (hv : v.Words) : Words { m with lastPopped := v } :=
  ⟨h.constants, h.globals, h.stack, hv, h.frames⟩

theorem pushFrame (h : m.Words) {fr : Frame} (hfr : ∀ v ∈ fr.free, v.Words) :
    Words { m with frame := fr, callers := m.frame :: m.callers } :=
  ⟨h.constants, h.globals, h.stack, h.lastPopped, List.forall_mem_cons.mpr ⟨hfr, h.frames⟩⟩

theorem popFrame (h : m.Words) {fr : Frame} {callers : List Frame}
    (hc : m.callers = fr :: callers) : Words { m with frame := fr, callers } := by
  have hframes := (List.forall_mem_cons.mp h.frames).2
  rw [hc] at hframes
  exact ⟨h.constants, h.globals, h.stack, h.lastPopped, hframes⟩

/-- Stack pointer, counters, output and the place in the code are no matter of what values there
are. -/
theorem moved (h : m.Words) (sp : Int) (ip steps fresh : Nat) (output : Array Output)
    (target : Nat) :
    Words { m with sp, ip, steps, fresh, output, frame := { m.frame with ip := target } } :=
  ⟨h.constants, h.globals, h.stack, h.lastPopped,
    List.forall_mem_cons.mpr (List.forall_mem_cons.mp h.frames)⟩

end Machine.Words

/-- A machine with only words in it is left, by success or by failure, and a result with the
property `R`. -/
def LeavesWords {α : Type} (R : α → Prop) : EStateM.Result Stop Machine α → Prop
  | .ok a m => m.Words ∧ R a
  | .error _ m => m.Words

/-- A computation that brings only words into a machine with only words in it. -/
def KeepsWords {α : Type} (R : α → Prop) (x : MachineM α) : Prop :=
  ∀ m, m.Words → LeavesWords R (x m)

namespace KeepsWords

variable {α β : Type} {R : α → Prop} {S : β → Prop}

theorem bind {x : MachineM α} {f : α → MachineM β} (hx : KeepsWords R x)
    (hf : ∀ a, R a → KeepsWords S (f a)) : KeepsWords S (x >>= f) := by
  intro m hm
  have hfirst := hx m hm
  rw [EStateM.bind_apply]
  cases h : x m with
  | error s m' =>
    rw [h] at hfirst
    exact hfirst
  | ok a m' =>
    rw [h] at hfirst
    exact hf a hfirst.2 m' hfirst.1

theorem pure {a : α} (ha : R a) : KeepsWords R (Pure.pure a : MachineM α) := fun _ hm => ⟨hm, ha⟩

theorem throw (s : Stop) : KeepsWords R (throwThe Stop s : MachineM α) := fun _ hm => hm

theorem fault_bind {f : Fault} {k : α → MachineM β} : KeepsWords S (MachineM.fault f >>= k) :=
  fun _ hm => hm

theorem get {k : Machine → MachineM β} (hk : ∀ m, m.Words → KeepsWords S (k m)) :
    KeepsWords S (MonadState.get >>= k) := fun m hm => hk m hm m hm

theorem modify {f : Machine → Machine} (hf : ∀ m, m.Words → (f m).Words) :
    KeepsWords (fun _ => True) (modifyThe Machine f : MachineM PUnit) :=
  fun m hm => ⟨hf m hm, trivial⟩

theorem need {o : Option α} (ho : ∀ a, o = some a → R a) : KeepsWords R (MachineM.need o) := by
  cases o with
  | none => exact throw _
  | some a => exact pure (ho a rfl)

theorem check {r : Except Fault α} (hr : ∀ a, r = .ok a → R a) :
    KeepsWords R (MachineM.check r) := by
  cases r with
  | error f => exact throw _
  | ok a => exact pure (hr a rfl)

theorem ofExcept {r : Except Stop α} (hr : ∀ a, r = .ok a → R a) :
    KeepsWords R (MachineM.ofExcept r) := by
  cases r with
  | error s => exact throw s
  | ok a => exact pure (hr a rfl)

theorem allocate : KeepsWords (fun _ => True) MachineM.allocate :=
  fun m hm => ⟨hm.moved m.sp m.ip m.steps (m.fresh + 1) m.output m.frame.ip, trivial⟩

theorem write (line : Output) : KeepsWords (fun _ => True) (MachineM.write line) :=
  modify fun m hm => hm.moved m.sp m.ip m.steps m.fresh (m.output.push line) m.frame.ip

theorem sp : KeepsWords (fun _ => True) MachineM.sp := get fun _ _ => pure trivial

theorem setSp (sp : Int) : KeepsWords (fun _ => True) (MachineM.setSp sp) :=
  modify fun m hm => hm.moved sp m.ip m.steps m.fresh m.output m.frame.ip

theorem jumpTo (target : Nat) : KeepsWords (fun _ => True) (MachineM.jumpTo target) :=
  modify fun m hm => hm.moved m.sp m.ip m.steps m.fresh m.output target

theorem slot (i : Int) : KeepsWords Value.Words (MachineM.slot i) :=
  get fun _ hm => need fun _ hv => Slots.forall_at? hm.stack hv

theorem setSlot (i : Int) {v : Value} (hv : v.Words) :
    KeepsWords (fun _ => True) (MachineM.setSlot i v) :=
  get fun _ _ => (need (R := fun _ => True) fun _ _ => trivial).bind fun i _ =>
    modify fun _ hm => hm.setSlot i hv

theorem push {v : Value} (hv : v.Words) : KeepsWords (fun _ => True) (MachineM.push v) := by
  refine sp.bind fun sp _ => get fun m _ => ?_
  split
  · exact fault_bind
  · exact (setSlot sp hv).bind fun _ _ => setSp _

theorem pop : KeepsWords Value.Words MachineM.pop := by
  refine sp.bind fun sp _ => ?_
  split
  · exact fault_bind
  · exact (setSp _).bind fun _ _ => slot _

theorem popMany (n : Nat) :
    KeepsWords (fun values => ∀ v ∈ values, v.Words) (MachineM.popMany n) := by
  have htop : KeepsWords (fun values => ∀ v ∈ values, v.Words) (MachineM.top n) :=
    sp.bind fun _ _ => get fun _ hm => pure (Slots.forall_slice hm.stack _ _)
  exact htop.bind fun _ hv => sp.bind fun _ _ => (setSp _).bind fun _ _ => pure hv

theorem clear (i : Int) (n : Nat) : KeepsWords (fun _ => True) (MachineM.clear i n) := by
  induction n generalizing i with
  | zero => exact pure trivial
  | succ n ih => exact (setSlot _ Value.words_null).bind fun _ _ => ih _

theorem forM {γ : Type} {f : γ → MachineM PUnit} (hf : ∀ a, KeepsWords (fun _ => True) (f a))
    (l : List γ) : KeepsWords (fun _ => True) (l.forM f) := by
  induction l with
  | nil => exact pure trivial
  | cons a l ih => exact (hf a).bind fun _ _ => ih

theorem callClosure (id : Nat) (proto : Prototype) {free : List Value} (hf : ∀ v ∈ free, v.Words)
    (n : Int) : KeepsWords (fun _ => True) (MachineM.callClosure id proto free n) := by
  unfold MachineM.callClosure
  split
  · exact fault_bind
  refine sp.bind fun sp _ => get fun m _ => ?_
  split
  · exact fault_bind
  have hframe (fr : Frame) (hfr : fr.free = free) :
      KeepsWords (fun _ => True) (MachineM.pushFrame fr) := by
    refine get fun m hm => ?_
    split
    · exact fault_bind
    · exact fun _ _ => ⟨hm.pushFrame (hfr ▸ hf), trivial⟩
  exact (hframe _ rfl).bind fun _ _ => (clear _ _).bind fun _ _ => setSp _

/-- A builtin gives back words if the sizes of its arguments are words. -/
theorem reply (b : Builtin) {args : List Value} (hargs : ∀ v ∈ args, v.Words)
    (hsizes : ∀ v ∈ args, v.Measures IsWord) (n : Int) :
    KeepsWords (fun _ => True) (do
      let reply ← MachineM.check (b.apply (← MachineM.allocate) args)
      reply.written.forM fun text => MachineM.write (.puts text)
      MachineM.setSp ((← MachineM.sp) - n - 1)
      MachineM.push reply.value) := by
  refine allocate.bind fun id _ => ?_
  refine (check (R := fun reply => reply.value.Words) fun reply hr =>
    b.apply_words hargs hsizes hr).bind fun reply hreply => ?_
  refine (forM (fun text => write (.puts text)) _).bind fun _ _ => ?_
  exact sp.bind fun _ _ => (setSp _).bind fun _ _ => push hreply

theorem leave {v : Value} (hv : v.Words) : KeepsWords (fun _ => True) (MachineM.leave v) := by
  have hframe : KeepsWords (fun _ => True) MachineM.popFrame := by
    intro m hm
    unfold MachineM.popFrame
    rw [EStateM.bind_ok (EStateM.get_apply m)]
    cases hc : m.callers with
    | nil => exact hm
    | cons fr callers => exact ⟨hm.popFrame hc, trivial⟩
  exact hframe.bind fun _ _ => (setSp _).bind fun _ _ => push hv

theorem readEntries (i : Int) {entries : Entries}
    (he : ∀ e ∈ entries, e.1.toValue.Words ∧ e.2.Words) (n : Nat) :
    KeepsWords (fun result : Entries => ∀ e ∈ result, e.1.toValue.Words ∧ e.2.Words)
      (MachineM.readEntries i entries n) := by
  induction n generalizing i entries with
  | zero => exact pure he
  | succ n ih =>
    refine (slot _).bind fun k hk => (slot _).bind fun v hv => ?_
    have hkey (key : Key) (h : k.hashKey = .ok key) : key.toValue.Words := by
      rw [Value.toValue_of_hashKey h]
      exact hk
    refine (check hkey).bind fun key hkey => ih _ fun e hmem => ?_
    rcases Entries.mem_insert hmem with rfl | hmem
    · exact ⟨hkey, hv⟩
    · exact he e hmem

theorem makeArray (n : Nat) : KeepsWords (fun _ => True) (MachineM.makeArray n) :=
  (popMany n).bind fun _ hv => allocate.bind fun _ _ => push (Value.words_array hv)

theorem makeHash (n : Nat) : KeepsWords (fun _ => True) (MachineM.makeHash n) :=
  sp.bind fun _ _ => (readEntries _ (List.forall_mem_nil _) _).bind fun _ he =>
    (setSp _).bind fun _ _ => allocate.bind fun _ _ => push (Value.words_hash he)

theorem makeClosure (a n : Nat) : KeepsWords (fun _ => True) (MachineM.makeClosure a n) := by
  refine get fun m _ => (need (R := fun _ => True) fun _ _ => trivial).bind fun v _ => ?_
  cases v with
  | function proto =>
    exact (popMany n).bind fun _ hfree => allocate.bind fun _ _ => push (Value.words_closure hfree)
  | _ => exact throw _

/-- An instruction that calls nothing. -/
theorem execute {op : Opcode} (hop : op ≠ .call) (a b : Nat) :
    KeepsWords (fun _ => True) (MachineM.execute op a b) := by
  cases op with
  | call => exact absurd rfl hop
  | constant =>
    exact get fun m hm => (need fun v hv => hm.constants v (Array.mem_of_getElem? hv)).bind
      fun _ hv => push hv
  | add | sub | mul | div =>
    exact pop.bind fun _ _ => pop.bind fun _ _ => (ofExcept fun _ h =>
      Value.words_arithmetic h).bind fun _ hv => push hv
  | equal | notEqual | greaterThan =>
    exact pop.bind fun _ _ => pop.bind fun _ _ =>
      (check (R := fun _ => True) fun _ _ => trivial).bind fun _ _ => push (Value.words_bool _)
  | pop =>
    refine pop.bind fun v hv => modify fun m hm => ?_
    split
    · exact hm.setLastPopped hv
    · exact hm
  | pushTrue | pushFalse => exact push (Value.words_bool _)
  | pushNull => exact push Value.words_null
  | bang => exact pop.bind fun _ _ => push (Value.words_bool _)
  | minus =>
    exact pop.bind fun _ _ => (ofExcept fun _ h => Value.words_negate h).bind fun _ hv => push hv
  | jump => exact jumpTo a
  | jumpNotTruthy =>
    refine pop.bind fun v _ => ?_
    split
    · exact pure trivial
    · exact jumpTo a
  | setGlobal =>
    refine pop.bind fun v hv => get fun m _ => ?_
    split
    · exact fun _ hm => hm
    · exact modify fun _ hm => hm.setGlobal a hv
  | getGlobal => exact get fun m hm => (need fun v hv => hm.globals a v hv).bind fun _ hv => push hv
  | setLocal => exact pop.bind fun _ hv => get fun _ _ => setSlot _ hv
  | getLocal => exact get fun _ _ => (slot _).bind fun _ hv => push hv
  | getBuiltin =>
    unfold MachineM.execute
    dsimp only
    split
    · exact push (Value.words_builtin _)
    · exact throw _
  | getFree =>
    refine get fun m hm => (need (R := Value.Words) fun v hv => ?_).bind fun _ hv => push hv
    exact hm.frames m.frame List.mem_cons_self v (List.mem_of_getElem? hv)
  | currentClosure =>
    exact get fun m hm => push (Value.words_closure (hm.frames m.frame List.mem_cons_self))
  | array => exact makeArray a
  | hash => exact makeHash a
  | index =>
    refine pop.bind fun _ _ => pop.bind fun left hleft => ?_
    exact (check (R := Value.Words) fun v hv => hleft.index hv).bind fun _ hv => push hv
  | returnValue => exact pop.bind fun _ hv => leave hv
  | returnNull => exact leave Value.words_null
  | closure => exact makeClosure a b

end KeepsWords

namespace Machine

variable {m m' m₀ : Machine}

/-- A call reads its arguments where the machine has them before it makes any change. -/
theorem Words.call (h : m.Words) (hr : m.Representable) (n : Int) :
    LeavesWords (fun _ => True) (MachineM.call n m) := by
  unfold MachineM.call MachineM.sp MachineM.slot
  simp only [EStateM.bind_apply, EStateM.get_apply, EStateM.pure_apply]
  cases hv : m.stack.at? (m.sp - 1 - n) with
  | none => exact h
  | some v =>
    have hwords : v.Words := Slots.forall_at? h.stack hv
    cases v with
    | closure id proto free => exact KeepsWords.callClosure id proto hwords.free n m h
    | builtin b =>
      exact KeepsWords.reply b (Slots.forall_slice h.stack _ _)
        (Slots.forall_slice (p := Value.Measures IsWord) hr _ _) n m h
    | _ => exact h

/-- What a step leaves has only words in it, also if it fails. -/
theorem Words.step (h : m.Words) (hr : m.Representable) :
    LeavesWords (fun _ => True) (MachineM.step m) := by
  rcases MachineM.step_cases m with ⟨stop, steps, output, he⟩ | ⟨op, a, b, steps, output, ip, he⟩
  · rw [he]
    exact h.moved m.sp m.frame.ip steps m.fresh output m.frame.ip
  · rw [he]
    have hmoved := h.moved m.sp m.frame.ip steps m.fresh output ip
    by_cases hop : op = .call
    · rw [hop]
      exact hmoved.call hr a
    · exact KeepsWords.execute hop a b _ hmoved

theorem Reaches.words (hm : Reaches Representable m₀ m) (h : m₀.Words) : m.Words := by
  induction hm with
  | start => exact h
  | step hreach hn _ ih =>
    have hstep := ih.step hreach.property
    rw [hn.2] at hstep
    exact hstep.1

theorem words_of_run? {fuel : Nat} {r : Except Failure Value} (h : m₀.Words)
    (hr : m₀.run? fuel = some (r, m'))
    (hP : ∀ m, Reaches (fun _ => True) m₀ m → m.Representable) : m'.Words := by
  obtain ⟨m, hreach, hend⟩ := exists_of_run?_eq_some hr
  have hm : m.Words := (hreach.with hP).words h
  rcases hend with ⟨-, -, rfl⟩ | ⟨-, stop, hstop, -⟩
  · exact hm
  · have hstep := hm.step (hP m hreach)
    rw [hstop] at hstep
    exact hstep

end Machine

end ClosureVM
