import ClosureVM.Proofs.Machine.Recast
import ClosureVM.Proofs.Value.Soundness

/-! Two machines with the same values below their stack pointers do the same, whatever lies above.
The second may have wider limits: then they do the same until the first runs out of resources. -/
namespace ClosureVM

/-- No bound is lowered; `none` bounds nothing. -/
structure Limits.Within (l l' : Limits) : Prop extends Limits.Allows l l' where
  maxSteps : ∀ max', l'.maxSteps = some max' → ∃ max, l.maxSteps = some max ∧ max ≤ max'

theorem Limits.Within.refl (l : Limits) : l.Within l :=
  ⟨.refl l, fun max h => ⟨max, h, Int.le_refl max⟩⟩

namespace Machine

def vary (m : Machine) (limits : Limits) (stack : Slots) (steps : Nat) : Machine :=
  { m with limits, stack, steps }

/-- The second machine is the first but for its limits, its stack and the steps it has counted. -/
def Twin (m m' : Machine) : Prop := ∃ limits stack steps, m' = m.vary limits stack steps

/-- Twins that cannot be told apart by what they still do, as long as the limits `l` are not
reached. -/
structure Alike (l l' : Limits) (m m' : Machine) : Prop where
  within : l.Within l'
  twin : m.Twin m'
  limits : m.limits = l
  limits' : m'.limits = l'
  size : m.stack.size = l.stackSize.toNat
  size' : m'.stack.size = l'.stackSize.toNat
  values : ∃ values, m.stack.Carries values ∧ m'.stack.Carries values ∧ m.sp = values.length
  steps : l'.maxSteps ≠ none → m'.steps = m.steps

/-- What the same action comes to on two machines. -/
inductive SameEnd (l l' : Limits) {α : Type} :
    EStateM.Result Stop Machine α → EStateM.Result Stop Machine α → Prop
  | ok {a : α} {m m' : Machine} : Alike l l' m m' → SameEnd l l' (.ok a m) (.ok a m')
  | error {s : Stop} {m m' : Machine} : m.Twin m' → SameEnd l l' (.error s m) (.error s m')
  | exhausted {f : Fault} {m : Machine} {r : EStateM.Result Stop Machine α} :
    f.IsResource → l ≠ l' → SameEnd l l' (.error (.fault f) m) r

variable {l l' : Limits} {m m' : Machine} {α β : Type}

theorem SameEnd.bind {x x' : MachineM α} {f f' : α → MachineM β}
    (hx : SameEnd l l' (x m) (x' m'))
    (hf : ∀ a m₁ m₁', x m = .ok a m₁ → Alike l l' m₁ m₁' → SameEnd l l' (f a m₁) (f' a m₁')) :
    SameEnd l l' ((x >>= f) m) ((x' >>= f') m') := by
  rw [EStateM.bind_apply, EStateM.bind_apply]
  generalize x m = r at hx hf
  generalize x' m' = r' at hx
  cases hx with
  | ok h => exact hf _ _ _ rfl h
  | error h => exact .error h
  | exhausted hr hl => exact .exhausted hr hl

/-- A resource that runs out in both machines, unless the second has more of it. -/
theorem SameEnd.overflow (f : Fault) (ht : m.Twin m')
    (hf : f.IsResource) {r : EStateM.Result Stop Machine α}
    (hr : l = l' → r = .error (.fault f) m') :
    SameEnd l l' (.error (.fault f) m) r := by
  by_cases hl : l = l'
  · rw [hr hl]
    exact .error ht
  · exact .exhausted hf hl

namespace Alike

/-- A change that has nothing to do with the stack, the limits and the steps counted. -/
theorem update (h : Alike l l' m m') {f : Machine → Machine}
    (hf : ∀ m limits stack steps, f (m.vary limits stack steps) = (f m).vary limits stack steps)
    (hsp : ∀ m, (f m).sp = m.sp) : Alike l l' (f m) (f m') := by
  have hm : f m = (f m).vary m.limits m.stack m.steps := hf m m.limits m.stack m.steps
  have hlimits : (f m).limits = m.limits := by rw [hm]; rfl
  have hstack : (f m).stack = m.stack := by rw [hm]; rfl
  have hsteps : (f m).steps = m.steps := by rw [hm]; rfl
  obtain ⟨limits, stack, steps, rfl⟩ := h.twin
  rw [hf]
  refine ⟨h.within, ⟨limits, stack, steps, rfl⟩, hlimits.trans h.limits, h.limits', ?_, h.size',
    ?_, ?_⟩
  · rw [hstack]
    exact h.size
  · rw [hstack, hsp]
    exact h.values
  · rw [hsteps]
    exact h.steps

/-- Both stacks come to carry other values. -/
theorem restack (h : Alike l l' m m') {stack stack' : Slots} {values : List Value} {sp sp' : Int}
    (hz : stack.size = m.stack.size) (hz' : stack'.size = m'.stack.size)
    (hc : stack.Carries values) (hc' : stack'.Carries values) (hsp : sp = values.length)
    (hsp' : sp' = values.length) :
    Alike l l' { m with stack, sp } { m' with stack := stack', sp := sp' } := by
  subst hsp hsp'
  have hsteps := h.steps
  have hlimits := h.limits'
  have hsize := hz'.trans h.size'
  obtain ⟨limits, _, steps, rfl⟩ := h.twin
  exact ⟨h.within, ⟨limits, stack', steps, rfl⟩, h.limits, hlimits, hz.trans h.size, hsize,
    ⟨values, hc, hc', rfl⟩, hsteps⟩

end Alike

end Machine

namespace MachineM

variable {m : Machine}

theorem push_of_lt {n : Nat} (hsp : m.sp = n) (hn : n < m.stack.size)
    (hl : ¬ m.limits.stackSize ≤ m.sp) (v : Value) :
    push v m = .ok () { m with stack := m.stack.set n v, sp := (n + 1 : Nat) } := by
  have hp : place? m.stack.size (n : Int) = some n := by
    rw [place?_natCast, if_pos hn]
  rw [hsp] at hl
  simp [push, setSlot, hsp, if_neg hl, hp]

theorem push_of_full (hl : m.limits.stackSize ≤ m.sp) (v : Value) :
    push v m = .error (.fault .stackOverflow) m := by
  simp [push, if_pos hl]

theorem slot_of_at? {i : Int} {v : Value} (h : m.stack.at? i = some v) : slot i m = .ok v m := by
  simp [slot, h]

theorem pop_of_carries {values : List Value} {v : Value} (hc : m.stack.Carries (values ++ [v]))
    (hsp : m.sp = (values.length + 1 : Nat)) :
    pop m = .ok v { m with sp := values.length } := by
  have hv : m.stack.at? values.length = some v := hc.at? List.getElem?_concat_length
  have hz : ¬ ((values.length + 1 : Nat) : Int) = 0 := by omega
  have hd : ((values.length + 1 : Nat) : Int) - 1 = values.length := by omega
  simp only [pop, sp, setSp, slot, EStateM.bind_apply, EStateM.get_apply, EStateM.pure_apply,
    EStateM.modify_apply, hsp, if_neg hz, hd, hv]
  rfl

theorem pop_of_empty (hsp : m.sp = 0) : pop m = .error (.fault .stackUnderflow) m := by
  simp [pop, if_pos hsp]

theorem top_of_carries {values : List Value} (hc : m.stack.Carries values) (hsp : m.sp = values.length)
    {n : Nat} (hn : n ≤ values.length) :
    top n m = .ok (values.drop (values.length - n)) m := by
  simp [top, hsp, hc.slice hn]

theorem setSlot_of_lt {n : Nat} (hn : n < m.stack.size) (v : Value) :
    setSlot n v m = .ok () { m with stack := m.stack.set n v } := by
  have hp : place? m.stack.size (n : Int) = some n := by
    rw [place?_natCast, if_pos hn]
  simp [setSlot, hp]

private theorem forM_write (texts : List String) (m : Machine) :
    (texts.forM fun text => write (.puts text)) m =
      .ok () { m with output := m.output ++ (texts.map .puts).toArray } := by
  induction texts generalizing m with
  | nil => simp [EStateM.pure_apply]
  | cons text texts ih =>
    have hw : write (.puts text) m = .ok () { m with output := m.output.push (.puts text) } := rfl
    change (write (.puts text) >>= fun _ => texts.forM _) m = _
    rw [EStateM.bind_ok hw, ih]
    simp

theorem leave_cons {fr : Frame} {frames : List Frame} (h : m.callers = fr :: frames) (v : Value) :
    leave v m = push v { m with frame := fr, callers := frames, sp := m.frame.base - 1 } := by
  simp [leave, popFrame, h]

section CallClosure

variable {id : Nat} {proto : Prototype} {free : List Value} {n : Int}

theorem callClosure_of_arity (hn : n ≠ proto.numParams) :
    callClosure id proto free n m = .error (.fault (.arity proto.numParams n)) m := by
  simp [callClosure, if_pos hn]

theorem callClosure_of_full (hn : n = proto.numParams)
    (hl : m.limits.stackSize < m.sp - n + proto.numLocals) :
    callClosure id proto free n m = .error (.fault .stackOverflow) m := by
  simp [callClosure, if_neg (not_not_intro hn), if_pos hl]

theorem callClosure_of_deep (hn : n = proto.numParams)
    (hl : ¬ m.limits.stackSize < m.sp - n + proto.numLocals)
    (hf : m.limits.maxFrames ≤ m.depth) :
    callClosure id proto free n m = .error (.fault (.frameOverflow m.limits.maxFrames)) m := by
  simp [callClosure, pushFrame, if_neg (not_not_intro hn), if_neg hl, if_pos hf]

/-- A call that has what it needs sets up its frame. -/
theorem callClosure_of_room {stack : Slots} (hn : n = proto.numParams)
    (hl : ¬ m.limits.stackSize < m.sp - n + proto.numLocals) (hf : ¬ m.limits.maxFrames ≤ m.depth)
    (hc : clear m.sp (m.sp - n + proto.numLocals - m.sp).toNat
        { m with frame := { id, proto, free, base := m.sp - n }, callers := m.frame :: m.callers } =
      .ok () { m with
        stack, frame := { id, proto, free, base := m.sp - n }, callers := m.frame :: m.callers }) :
    callClosure id proto free n m = .ok () { m with
      stack, sp := m.sp - n + proto.numLocals
      frame := { id, proto, free, base := m.sp - n }, callers := m.frame :: m.callers } := by
  simp [callClosure, pushFrame, if_neg (not_not_intro hn), if_neg hl, if_neg hf, hc]

end CallClosure

end MachineM

namespace Machine

variable {l l' : Limits} {m m' : Machine}

namespace Alike

theorem sp_eq (h : Alike l l' m m') : m'.sp = m.sp := by
  obtain ⟨_, _, _, rfl⟩ := h.twin
  rfl

theorem push (h : Alike l l' m m') (v : Value) :
    SameEnd l l' (MachineM.push v m) (MachineM.push v m') := by
  obtain ⟨values, hc, hc', hsp⟩ := h.values
  have hle := h.within.stackSize
  by_cases ho : m.limits.stackSize ≤ m.sp
  · rw [MachineM.push_of_full ho]
    refine SameEnd.overflow .stackOverflow h.twin trivial fun hl => ?_
    apply MachineM.push_of_full
    rwa [h.sp_eq, h.limits', ← hl, ← h.limits]
  · have ho' : ¬ m'.limits.stackSize ≤ m'.sp := by
      rw [h.limits] at ho
      rw [h.limits', h.sp_eq]
      omega
    have hn : values.length < m.stack.size := by
      rw [h.limits] at ho
      rw [h.size]
      omega
    have hn' : values.length < m'.stack.size := by
      rw [h.limits', h.sp_eq] at ho'
      rw [h.size']
      omega
    rw [MachineM.push_of_lt hsp hn ho, MachineM.push_of_lt (h.sp_eq.trans hsp) hn' ho']
    have hlen : ((values.length + 1 : Nat) : Int) = (values ++ [v]).length := by
      rw [List.length_append, List.length_singleton]
    exact .ok (h.restack (Slots.size_set ..) (Slots.size_set ..) (hc.push hn v) (hc'.push hn' v)
      hlen hlen)

theorem popped (h : Alike l l' m m') (hsp : 0 < m.sp) :
    ∃ v, MachineM.pop m = .ok v { m with sp := m.sp - 1 } ∧
      MachineM.pop m' = .ok v { m' with sp := m.sp - 1 } ∧
      Alike l l' { m with sp := m.sp - 1 } { m' with sp := m.sp - 1 } := by
  obtain ⟨values, hc, hc', hlen⟩ := h.values
  obtain rfl | ⟨rest, v, rfl⟩ := List.eq_nil_or_concat values
  · rw [hlen] at hsp
    cases hsp
  · rw [List.concat_eq_append] at hc hc' hlen
    rw [List.length_append] at hlen
    have hd : m.sp - 1 = rest.length := by
      rw [hlen, List.length_singleton]
      omega
    rw [hd]
    exact ⟨v, MachineM.pop_of_carries hc hlen,
      MachineM.pop_of_carries hc' (h.sp_eq.trans hlen),
      h.restack rfl rfl hc.of_append hc'.of_append rfl rfl⟩

theorem pop (h : Alike l l' m m') : SameEnd l l' (MachineM.pop m) (MachineM.pop m') := by
  obtain ⟨values, -, -, hlen⟩ := h.values
  by_cases hsp : m.sp = 0
  · rw [MachineM.pop_of_empty hsp, MachineM.pop_of_empty (h.sp_eq.trans hsp)]
    exact .error h.twin
  · obtain ⟨v, hm, hm', hr⟩ := h.popped (by omega)
    rw [hm, hm']
    exact .ok hr

/-- Taking values off the stacks. -/
theorem setSp (h : Alike l l' m m') {n : Nat} (hn : n ≤ m.sp) :
    Alike l l' { m with sp := n } { m' with sp := n } := by
  obtain ⟨values, hc, hc', hsp⟩ := h.values
  have hl : (n : Int) = (values.take n).length := by
    rw [List.length_take]
    omega
  rw [← List.take_append_drop n values] at hc hc'
  exact h.restack rfl rfl hc.of_append hc'.of_append hl hl

theorem popMany (h : Alike l l' m m') {n : Nat} (hn : n ≤ m.sp) :
    SameEnd l l' (MachineM.popMany n m) (MachineM.popMany n m') := by
  obtain ⟨values, hc, hc', hsp⟩ := h.values
  have hle : n ≤ values.length := by omega
  have hd : (values.length : Int) - n = (values.length - n : Nat) := by omega
  have hr := h.setSp (n := values.length - n) (by omega)
  have htop := MachineM.top_of_carries hc hsp hle
  have htop' := MachineM.top_of_carries hc' (h.sp_eq.trans hsp) hle
  simpa [MachineM.popMany, htop, htop', h.sp_eq, hsp, hd] using .ok hr

theorem slot (h : Alike l l' m m') {i : Int} (h₀ : 0 ≤ i) (hi : i < m.sp) :
    SameEnd l l' (MachineM.slot i m) (MachineM.slot i m') := by
  obtain ⟨values, hc, hc', hsp⟩ := h.values
  obtain ⟨n, rfl⟩ := Int.eq_ofNat_of_zero_le h₀
  have hn : n < values.length := by omega
  have hv : values[n]? = some values[n] := List.getElem?_eq_getElem hn
  rw [MachineM.slot_of_at? (hc.at? hv), MachineM.slot_of_at? (hc'.at? hv)]
  exact .ok h

theorem setSlot (h : Alike l l' m m') {i : Int} (h₀ : 0 ≤ i) (hi : i < m.sp) (v : Value) :
    SameEnd l l' (MachineM.setSlot i v m) (MachineM.setSlot i v m') := by
  obtain ⟨values, hc, hc', hsp⟩ := h.values
  obtain ⟨n, rfl⟩ := Int.eq_ofNat_of_zero_le h₀
  have hn : n < values.length := by omega
  have hz := hc.length_le
  have hz' := hc'.length_le
  rw [MachineM.setSlot_of_lt (by omega), MachineM.setSlot_of_lt (by omega)]
  have hlen : m.sp = (values.set n v).length := by
    rw [List.length_set]
    exact hsp
  exact .ok (h.restack (Slots.size_set ..) (Slots.size_set ..) (hc.set hn v) (hc'.set hn v) hlen
    (h.sp_eq.trans hlen))

theorem leave (h : Alike l l' m m') (hbase : 0 < m.frame.base) (hle : m.frame.base ≤ m.sp)
    (v : Value) : SameEnd l l' (MachineM.leave v m) (MachineM.leave v m') := by
  obtain ⟨n, hn⟩ : ∃ n : Nat, m.frame.base - 1 = n := Int.eq_ofNat_of_zero_le (by omega)
  have hsp : n ≤ m.sp := by omega
  cases hcallers : m.callers with
  | nil =>
    have ht := h.twin
    obtain ⟨limits, stack, steps, rfl⟩ := ht
    have hm : MachineM.leave v m = .error (.fault .returnOutsideFunction) m := by
      simp [MachineM.leave, MachineM.popFrame, hcallers]
    have hm' : MachineM.leave v (m.vary limits stack steps) =
        .error (.fault .returnOutsideFunction) (m.vary limits stack steps) := by
      simp [MachineM.leave, MachineM.popFrame, vary, hcallers]
    rw [hm, hm']
    exact .error h.twin
  | cons fr frames =>
    have hr := (h.setSp hsp).update (f := fun m => { m with frame := fr, callers := frames })
      (fun _ _ _ _ => rfl) (fun _ => rfl)
    have hframe : m'.frame = m.frame ∧ m'.callers = m.callers := by
      obtain ⟨_, _, _, rfl⟩ := h.twin
      exact ⟨rfl, rfl⟩
    rw [MachineM.leave_cons hcallers, MachineM.leave_cons (hframe.2.trans hcallers), hframe.1, hn]
    exact hr.push v

theorem callBuiltin (h : Alike l l' m m') (b : Builtin) {n : Nat} (hn : n < m.sp) :
    SameEnd l l' (MachineM.callBuiltin b n m) (MachineM.callBuiltin b n m') := by
  obtain ⟨values, hc, hc', hsp⟩ := h.values
  have hle : n ≤ values.length := by omega
  have htop := MachineM.top_of_carries hc hsp hle
  have htop' := MachineM.top_of_carries hc' (h.sp_eq.trans hsp) hle
  have hfresh := h.update (f := fun m₁ => { m₁ with fresh := m.fresh + 1 }) (fun _ _ _ _ => rfl)
    (fun _ => rfl)
  have ha (m : Machine) : MachineM.allocate m = .ok m.fresh { m with fresh := m.fresh + 1 } := rfl
  have hf : m'.fresh = m.fresh := by
    obtain ⟨_, _, _, rfl⟩ := h.twin
    rfl
  cases hb : b.apply m.fresh (values.drop (values.length - n)) with
  | error f =>
    simpa [MachineM.callBuiltin, htop, htop', ha, hf, hb] using .error hfresh.twin
  | ok reply =>
    have hd : m.sp - n - 1 = (values.length - n - 1 : Nat) := by omega
    have hout := (hfresh.setSp (n := values.length - n - 1) (by dsimp only; omega)).update
      (f := fun m => { m with output := m.output ++ (reply.written.map .puts).toArray })
      (fun _ _ _ _ => rfl) (fun _ => rfl)
    simp only [MachineM.callBuiltin, EStateM.bind_apply, htop, htop', ha, hf, hb, MachineM.check,
      EStateM.pure_apply, MachineM.forM_write, MachineM.sp, MachineM.setSp, EStateM.get_apply,
      EStateM.modify_apply, h.sp_eq, hd]
    exact hout.push reply.value

theorem callClosure (h : Alike l l' m m') {id : Nat} {proto : Prototype} {free : List Value}
    {n : Nat} (hp : proto.numParams ≤ proto.numLocals) :
    SameEnd l l' (MachineM.callClosure id proto free n m)
      (MachineM.callClosure id proto free n m') := by
  obtain ⟨values, hc, hc', hsp⟩ := h.values
  have hle := h.within.stackSize
  have hle' := h.within.maxFrames
  have hdepth : m'.depth = m.depth := by
    obtain ⟨_, _, _, rfl⟩ := h.twin
    rfl
  by_cases ha : (n : Int) = proto.numParams
  · by_cases ho : m.limits.stackSize < m.sp - n + proto.numLocals
    · rw [MachineM.callClosure_of_full ha ho]
      refine SameEnd.overflow .stackOverflow h.twin trivial fun hl => ?_
      apply MachineM.callClosure_of_full ha
      rwa [h.limits', h.sp_eq, ← hl, ← h.limits]
    have ho' : ¬ m'.limits.stackSize < m'.sp - n + proto.numLocals := by
      rw [h.limits] at ho
      rw [h.limits', h.sp_eq]
      omega
    by_cases hf : m.limits.maxFrames ≤ m.depth
    · rw [MachineM.callClosure_of_deep ha ho hf]
      refine SameEnd.overflow (.frameOverflow _) h.twin trivial fun hl => ?_
      have hlimits : m'.limits = m.limits := by rw [h.limits, h.limits', hl]
      rw [← hlimits]
      apply MachineM.callClosure_of_deep ha ho'
      rwa [hlimits, hdepth]
    have hf' : ¬ m'.limits.maxFrames ≤ m'.depth := by
      rw [h.limits] at hf
      rw [h.limits', hdepth]
      omega
    -- what is cleared is the rest of the locals, in both stacks
    let fr : Frame := { id, proto, free, base := m.sp - n }
    have hroom : values.length + (m.sp - n + proto.numLocals - m.sp).toNat ≤ m.stack.size := by
      rw [h.limits] at ho
      rw [h.size]
      omega
    have hroom' : values.length + (m.sp - n + proto.numLocals - m.sp).toNat ≤ m'.stack.size := by
      rw [h.limits', h.sp_eq] at ho'
      rw [h.size']
      omega
    obtain ⟨stack, hclear, hz, hcar⟩ := @MachineM.clear_carries
      { m with frame := fr, callers := m.frame :: m.callers } values hc _ hroom
    obtain ⟨stack', hclear', hz', hcar'⟩ := @MachineM.clear_carries
      { m' with frame := fr, callers := m.frame :: m.callers } values hc' _ hroom'
    have hlen : m.sp - n + proto.numLocals =
        (values ++ List.replicate (m.sp - n + proto.numLocals - m.sp).toNat Value.null).length := by
      rw [List.length_append, List.length_replicate]
      omega
    have hr := (h.restack hz hz' hcar hcar' hlen hlen).update
      (f := fun m₁ => { m₁ with frame := fr, callers := m.frame :: m.callers })
      (fun _ _ _ _ => rfl) (fun _ => rfl)
    rw [← hsp] at hclear hclear'
    have hm' : MachineM.callClosure id proto free n m' = .ok () { m' with
        stack := stack', sp := m.sp - n + proto.numLocals
        frame := fr, callers := m.frame :: m.callers } := by
      obtain ⟨_, _, _, rfl⟩ := h.twin
      exact MachineM.callClosure_of_room ha ho' hf' hclear'
    rw [MachineM.callClosure_of_room ha ho hf hclear, hm']
    exact .ok hr
  · rw [MachineM.callClosure_of_arity ha, MachineM.callClosure_of_arity ha]
    exact .error h.twin

theorem call (h : Alike l l' m m') {n : Nat} (hn : n < m.sp)
    (hp : ∀ id proto free, m.stack.at? (m.sp - 1 - n) = some (.closure id proto free) →
      proto.numParams ≤ proto.numLocals) :
    SameEnd l l' (MachineM.call n m) (MachineM.call n m') := by
  obtain ⟨values, hc, hc', hsp⟩ := h.values
  have hi : m.sp - 1 - n = (values.length - 1 - n : Nat) := by omega
  have hlt : values.length - 1 - n < values.length := by omega
  obtain ⟨v, hv⟩ : ∃ v, values[values.length - 1 - n]? = some v :=
    ⟨_, List.getElem?_eq_getElem hlt⟩
  have hat := hc.at? hv
  have hat' := hc'.at? hv
  rw [← hi] at hat hat'
  simp only [MachineM.call, MachineM.sp_apply, EStateM.bind_apply, h.sp_eq,
    MachineM.slot_of_at? hat, MachineM.slot_of_at? hat']
  cases v with
  | closure id proto free => exact h.callClosure (hp id proto free hat)
  | builtin b => exact h.callBuiltin b hn
  | _ => exact .error h.twin

end Alike

end Machine

/-- The action does the same to machines that are alike. -/
def Parallel (l l' : Limits) {α : Type} (x : MachineM α) : Prop :=
  ∀ m m', Machine.Alike l l' m m' → Machine.SameEnd l l' (x m) (x m')

namespace Parallel

variable {l l' : Limits} {α β : Type}

theorem bind {x : MachineM α} {f : α → MachineM β} (hx : Parallel l l' x)
    (hf : ∀ a, Parallel l l' (f a)) : Parallel l l' (x >>= f) :=
  fun m m' h => (hx m m' h).bind fun a _ _ _ => hf a _ _

theorem pure (a : α) : Parallel l l' (Pure.pure a : MachineM α) := fun _ _ h => .ok h

theorem throw (s : Stop) : Parallel l l' (throwThe Stop s : MachineM α) :=
  fun _ _ h => .error h.twin

theorem need (o : Option α) : Parallel l l' (MachineM.need o) := by
  cases o with
  | none => exact throw _
  | some a => exact pure a

theorem check (r : Except Fault α) : Parallel l l' (MachineM.check r) := by
  cases r with
  | error f => exact throw _
  | ok a => exact pure a

theorem ofExcept (r : Except Stop α) : Parallel l l' (MachineM.ofExcept r) := by
  cases r with
  | error s => exact throw s
  | ok a => exact pure a

theorem modify {f : Machine → Machine}
    (hf : ∀ m limits stack steps, f (m.vary limits stack steps) = (f m).vary limits stack steps)
    (hsp : ∀ m, (f m).sp = m.sp) : Parallel l l' (modifyThe Machine f : MachineM PUnit) :=
  fun _ _ h => .ok (h.update hf hsp)

/-- Reading what is the same in both machines. -/
theorem get {k : Machine → MachineM α}
    (hk : ∀ m limits stack steps, k (m.vary limits stack steps) = k m)
    (hp : ∀ m, Parallel l l' (k m)) : Parallel l l' (MonadState.get >>= k) := by
  intro m m' h
  obtain ⟨limits, stack, steps, rfl⟩ := h.twin
  rw [EStateM.bind_ok (EStateM.get_apply _), EStateM.bind_ok (EStateM.get_apply _), hk]
  exact hp m _ _ h

theorem push (v : Value) : Parallel l l' (MachineM.push v) := fun _ _ h => h.push v

theorem pop : Parallel l l' MachineM.pop := fun _ _ h => h.pop

theorem jumpTo (target : Nat) : Parallel l l' (MachineM.jumpTo target) :=
  modify (fun _ _ _ _ => rfl) fun _ => rfl

theorem pushFound (f : Machine → Option Value)
    (hf : ∀ m limits stack steps, f (m.vary limits stack steps) = f m) :
    Parallel l l' (MonadState.get >>= fun m => MachineM.need (f m) >>= MachineM.push) :=
  get (fun m limits stack steps => by rw [hf]) fun _ => (need _).bind push

theorem allocate {f : Nat → MachineM α} (hf : ∀ id, Parallel l l' (f id)) :
    Parallel l l' (MachineM.allocate >>= f) := by
  intro m m' h
  have hfresh := h.update (f := fun m₁ => { m₁ with fresh := m.fresh + 1 }) (fun _ _ _ _ => rfl)
    (fun _ => rfl)
  have ht := h.twin
  obtain ⟨limits, stack, steps, rfl⟩ := ht
  exact hf m.fresh _ _ hfresh

end Parallel

namespace Machine

/-- What an instruction takes off the stack or finds among the locals is there, and lies above what
belongs to the callers. -/
def Owns (m : Machine) (op : Opcode) (a b : Nat) : Prop :=
  match op with
  | .getLocal => 0 ≤ m.frame.base ∧ m.frame.base + a < m.sp
  | .setLocal => 0 ≤ m.frame.base ∧ m.frame.base + a < m.sp - 1
  | .array => a ≤ m.sp
  | .hash => a ≤ m.sp ∧ a % 2 = 0
  | .closure => b ≤ m.sp
  | .call => a < m.sp ∧ ∀ id proto free,
      m.stack.at? (m.sp - 1 - a) = some (.closure id proto free) →
        proto.numParams ≤ proto.numLocals
  | .returnValue => 0 < m.frame.base ∧ m.frame.base ≤ m.sp - 1
  | .returnNull => 0 < m.frame.base ∧ m.frame.base ≤ m.sp
  | _ => True

variable {l l' : Limits} {m m' : Machine}

namespace Alike

theorem makeArray (h : Alike l l' m m') {n : Nat} (hn : n ≤ m.sp) :
    SameEnd l l' (MachineM.makeArray n m) (MachineM.makeArray n m') :=
  (h.popMany hn).bind fun _ _ _ _ => Parallel.allocate (fun _ => .push _) _ _

theorem makeHash (h : Alike l l' m m') {n : Nat} (hn : n ≤ m.sp) (heven : n % 2 = 0) :
    SameEnd l l' (MachineM.makeHash n m) (MachineM.makeHash n m') := by
  obtain ⟨values, hc, hc', hsp⟩ := h.values
  have hi : m.sp - n = (values.take (values.length - n)).length := by
    rw [List.length_take]
    omega
  have hlen : (values.drop (values.length - n)).length = 2 * ((n + 1) / 2) := by
    rw [List.length_drop]
    omega
  rw [← List.take_append_drop (values.length - n) values] at hc hc'
  have hread := MachineM.readEntries_carries hc [] hlen
  have hread' := MachineM.readEntries_carries hc' [] hlen
  have hr := h.restack rfl rfl hc.of_append hc'.of_append hi hi
  rw [← hi] at hread hread'
  unfold MachineM.makeHash
  rw [EStateM.bind_ok (rfl : MachineM.sp m = .ok m.sp m),
    EStateM.bind_ok (rfl : MachineM.sp m' = .ok m'.sp m'), h.sp_eq]
  rw [EStateM.bind_apply, hread, EStateM.bind_apply, hread']
  cases Entries.ofValues [] (values.drop (values.length - n)) with
  | error f => exact .error h.twin
  | ok entries => exact Parallel.allocate (fun id => .push (.hash id entries)) _ _ hr

theorem makeClosure (h : Alike l l' m m') (a : Nat) {n : Nat} (hn : n ≤ m.sp) :
    SameEnd l l' (MachineM.makeClosure a n m) (MachineM.makeClosure a n m') := by
  have hconstants : m'.constants = m.constants := by
    obtain ⟨_, _, _, rfl⟩ := h.twin
    rfl
  unfold MachineM.makeClosure
  rw [EStateM.bind_ok (EStateM.get_apply _), EStateM.bind_ok (EStateM.get_apply _), hconstants]
  cases m.constants[a]? with
  | none => exact .error h.twin
  | some v =>
    cases v with
    | function proto =>
      exact (h.popMany hn).bind fun free _ _ _ =>
        Parallel.allocate (fun id => .push (.closure id proto free)) _ _
    | _ => exact .error h.twin

theorem getLocal (h : Alike l l' m m') {a : Nat} (h₀ : 0 ≤ m.frame.base)
    (ha : m.frame.base + a < m.sp) (b : Nat) :
    SameEnd l l' (MachineM.execute .getLocal a b m) (MachineM.execute .getLocal a b m') := by
  have hs := h.slot (by omega) ha
  obtain ⟨_, _, _, rfl⟩ := h.twin
  exact hs.bind fun v _ _ _ h => h.push v

theorem setLocal (h : Alike l l' m m') {a : Nat} (h₀ : 0 ≤ m.frame.base)
    (ha : m.frame.base + a < m.sp - 1) (b : Nat) :
    SameEnd l l' (MachineM.execute .setLocal a b m) (MachineM.execute .setLocal a b m') := by
  obtain ⟨v, hm, hm', hr⟩ := h.popped (by omega)
  have hs := hr.setSlot (i := m.frame.base + a) (by omega) ha v
  unfold MachineM.execute
  dsimp only
  rw [EStateM.bind_ok hm, EStateM.bind_ok hm']
  obtain ⟨_, _, _, rfl⟩ := h.twin
  exact hs

theorem returnValue (h : Alike l l' m m') (hbase : 0 < m.frame.base)
    (hle : m.frame.base ≤ m.sp - 1) (a b : Nat) :
    SameEnd l l' (MachineM.execute .returnValue a b m)
      (MachineM.execute .returnValue a b m') := by
  obtain ⟨v, hm, hm', hr⟩ := h.popped (by omega)
  unfold MachineM.execute
  dsimp only
  rw [EStateM.bind_ok hm, EStateM.bind_ok hm']
  exact hr.leave hbase hle v

/-- An instruction that finds on the stack what it needs. -/
theorem execute (h : Alike l l' m m') {op : Opcode} {a b : Nat} (ho : m.Owns op a b) :
    SameEnd l l' (MachineM.execute op a b m) (MachineM.execute op a b m') := by
  cases op with
  | constant => exact Parallel.pushFound (·.constants[a]?) (fun _ _ _ _ => rfl) m m' h
  | add | sub | mul | div =>
    exact (Parallel.pop.bind fun _ => Parallel.pop.bind fun _ =>
      (Parallel.ofExcept _).bind fun _ => .push _) m m' h
  | equal | notEqual | greaterThan =>
    exact (Parallel.pop.bind fun _ => Parallel.pop.bind fun _ =>
      (Parallel.check _).bind fun _ => .push _) m m' h
  | pop =>
    refine (Parallel.pop.bind fun v => Parallel.modify (fun m limits stack steps => ?_)
      fun m => ?_) m m' h
    · change (if m.callers.isEmpty then _ else _) = _
      split <;> rfl
    · split <;> rfl
  | pushTrue | pushFalse | pushNull => exact h.push _
  | bang => exact (Parallel.pop.bind fun _ => .push _) m m' h
  | minus =>
    exact (Parallel.pop.bind fun _ => (Parallel.ofExcept _).bind fun _ => .push _) m m' h
  | jump => exact Parallel.jumpTo a m m' h
  | jumpNotTruthy =>
    refine (Parallel.pop.bind fun v => ?_) m m' h
    cases v.truthy with
    | true => exact .pure ()
    | false => exact .jumpTo a
  | setGlobal =>
    refine (Parallel.pop.bind fun v => .get ?_ fun m => ?_) m m' h
    · exact fun _ _ _ _ => rfl
    split
    · exact (Parallel.throw _).bind fun _ => .modify (fun _ _ _ _ => rfl) fun _ => rfl
    · exact .modify (fun _ _ _ _ => rfl) fun _ => rfl
  | getGlobal => exact Parallel.pushFound (·.globals.get? a) (fun _ _ _ _ => rfl) m m' h
  | setLocal => exact h.setLocal ho.1 ho.2 b
  | getLocal => exact h.getLocal ho.1 ho.2 b
  | getBuiltin =>
    unfold MachineM.execute
    dsimp only
    cases Builtin.all[a]? with
    | none => exact .error h.twin
    | some b => exact h.push _
  | getFree => exact Parallel.pushFound (·.frame.free[a]?) (fun _ _ _ _ => rfl) m m' h
  | currentClosure =>
    exact Parallel.pushFound (some ·.frame.closure) (fun _ _ _ _ => rfl) m m' h
  | array => exact h.makeArray ho
  | hash => exact h.makeHash ho.1 ho.2
  | index =>
    exact (Parallel.pop.bind fun _ => Parallel.pop.bind fun _ =>
      (Parallel.check _).bind fun _ => .push _) m m' h
  | call => exact h.call ho.1 ho.2
  | returnValue => exact h.returnValue ho.1 ho.2 a b
  | returnNull => exact h.leave ho.1 ho.2 .null
  | closure => exact h.makeClosure a ho

/-- The counters agree where the second machine counts at all. -/
theorem count (h : Alike l l' m m') {steps steps' : Nat}
    (hs : l'.maxSteps ≠ none → steps' = steps) :
    Alike l l' { m with steps } { m' with steps := steps' } := by
  have hlimits := h.limits'
  have hsize := h.size'
  have hvalues := h.values
  obtain ⟨limits, stack, _, rfl⟩ := h.twin
  exact ⟨h.within, ⟨limits, stack, steps', rfl⟩, h.limits, hlimits, h.size, hsize, hvalues, hs⟩

theorem countStep (h : Alike l l' m m') :
    SameEnd l l' (MachineM.countStep m) (MachineM.countStep m') := by
  have hwithin := h.within.maxSteps
  have hlimits := h.limits
  have hlimits' := h.limits'
  cases hl : l.maxSteps with
  | none =>
    have hl' : l'.maxSteps = none := by
      cases hl' : l'.maxSteps with
      | none => rfl
      | some max' =>
        obtain ⟨max, hm, -⟩ := hwithin max' hl'
        rw [hl] at hm
        cases hm
    rw [MachineM.countStep_of_none (hlimits ▸ hl), MachineM.countStep_of_none (hlimits' ▸ hl')]
    exact .ok h
  | some max =>
    by_cases hm : max < (m.steps + 1 : Nat)
    · rw [MachineM.countStep_of_lt (hlimits ▸ hl) hm]
      refine SameEnd.overflow (.stepLimit max) (h.count fun _ => rfl).twin trivial fun hll => ?_
      subst hll
      have hsteps := h.steps (by rw [hl]; exact Option.some_ne_none max)
      rw [← hsteps] at hm ⊢
      exact MachineM.countStep_of_lt (hlimits' ▸ hl) hm
    · rw [MachineM.countStep_of_le (hlimits ▸ hl) hm]
      cases hl' : l'.maxSteps with
      | none =>
        rw [MachineM.countStep_of_none (hlimits' ▸ hl')]
        exact .ok (h.count fun hne => absurd hl' hne)
      | some max' =>
        have hsteps := h.steps (by rw [hl']; exact Option.some_ne_none max')
        obtain ⟨_, hm', hle⟩ := hwithin max' hl'
        rw [hl] at hm'
        cases hm'
        rw [MachineM.countStep_of_le (hlimits' ▸ hl') (by rw [hsteps]; omega), hsteps]
        exact .ok (h.count fun _ => rfl)

theorem traced (h : Alike l l' m m') (i : Instruction) :
    Alike l l' (m.traced i) (m'.traced i) := by
  unfold Machine.traced
  obtain ⟨limits, stack, steps, rfl⟩ := h.twin
  change Alike l l' (if m.tracing then _ else m) (if m.tracing then _ else _)
  split
  · exact h.update (f := fun m₁ => { m₁ with
      output := m.output.push (.trace (MachineM.traceText m.frame.ip i m.sp)) })
      (fun _ _ _ _ => rfl) (fun _ => rfl)
  · exact h

theorem advanced (h : Alike l l' m m') (op : Opcode) :
    Alike l l' (m.advanced op) (m'.advanced op) := by
  unfold Machine.advanced
  split
  · exact h.update (f := fun m => { m with frame := { m.frame with ip := m.frame.ip + op.size } })
      (fun _ _ _ _ => rfl) (fun _ => rfl)
  · exact h

end Alike

/-- Counting, tracing and moving on leave the stack as it is. -/
theorem Owns.prepared {op : Opcode} {a b : Nat} (h : m.Owns op a b) (ip steps : Nat)
    (i : Instruction) : ((traced { m with ip, steps } i).advanced i.op).Owns op a b := by
  unfold traced advanced
  split <;> split <;> exact h

theorem Alike.step (h : Alike l l' m m') {i : Instruction}
    (hi : m.frame.code.fetch? m.frame.ip = some i)
    (ho : m.Owns i.op (i.operands.getD 0 0) (i.operands.getD 1 0)) :
    SameEnd l l' (MachineM.step m) (MachineM.step m') := by
  have h₀ := h.update (f := fun m => { m with ip := m.frame.ip }) (fun _ _ _ _ => rfl)
    (fun _ => rfl)
  have hi' : m'.frame.code.fetch? m'.frame.ip = some i := by
    obtain ⟨_, _, _, rfl⟩ := h.twin
    exact hi
  rw [MachineM.step_eq hi, MachineM.step_eq hi']
  refine h₀.countStep.bind fun _ m₁ m₁' hm₁ h₁ => ?_
  rw [MachineM.afterCount_apply, MachineM.afterCount_apply]
  apply ((h₁.traced i).advanced i.op).execute
  obtain ⟨steps, hok | ⟨max, -, herr⟩⟩ := MachineM.countStep_cases { m with ip := m.frame.ip }
  · rw [hok] at hm₁
    cases hm₁
    exact ho.prepared m.frame.ip steps i
  · rw [herr] at hm₁
    cases hm₁

end Machine

end ClosureVM
