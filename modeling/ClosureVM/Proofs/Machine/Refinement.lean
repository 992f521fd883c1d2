import ClosureVM.Proofs.Effects
import ClosureVM.Proofs.Machine.Activation
import ClosureVM.Proofs.Machine.Stack

/-! Machines on bytes that represent a configuration, and what the steps of such a machine do
to it. -/
namespace ClosureVM

/-- A frame stands where the call still has its code to execute. -/
structure Activation.Matches (a : Activation) (base : Nat) (fr : Frame) : Prop where
  follows : Follows fr.code fr.ip a.code
  base : fr.base = base
  self : a.self = .null ∨ a.self = fr.closure
  locals : fr.proto.numLocals = a.locals.length

theorem Activation.Matches.withTemps {a : Activation} {base : Nat} {fr : Frame}
    (h : a.Matches base fr) (temps : List Value) : (a.withTemps temps).Matches base fr :=
  ⟨h.follows, h.base, h.self, h.locals⟩

/-- Frames for nested calls, innermost first: each starts where the stack of its callers ends. -/
def FramesMatch : List Activation → List Frame → Prop
  | [], [] => True
  | a :: callers, fr :: frames =>
    a.Matches (stackOf callers).length fr ∧ FramesMatch callers frames
  | _, _ => False

def Output.puts? : Output → Option String
  | .puts text => some text
  | .trace _ => none

/-- The machine is in the state that `c` describes. Places above the stack pointer, the
instruction pointer of errors, the step counter and traces are left open. -/
structure Represents (m : Machine) (c : Config) : Prop where
  constants : m.constants = c.constants
  globals : m.globals = c.globals
  limits : m.limits = c.limits
  tracing : m.tracing = c.tracing
  lastPopped : m.lastPopped = c.lastPopped
  written : m.output.toList.filterMap Output.puts? = c.written
  untraced : c.tracing = false → m.output.toList = c.written.map .puts
  fresh : m.fresh = c.fresh
  sp : m.sp = c.height
  size : m.stack.size = c.limits.stackSize.toNat
  carries : m.stack.Carries c.stack
  current : c.current.Matches (stackOf c.callers).length m.frame
  callers : FramesMatch c.callers m.callers

/-- The result of a step of a machine is the one that the effect describes. -/
def Effect.Covers : Effect → EStateM.Result Stop Machine Unit → Prop
  | .next c, r => ∃ m, r = .ok () m ∧ Represents m c
  | .stop s c, r => ∃ m, r = .error s m ∧ Represents m c
  | .stuck, _ => True

theorem FramesMatch.length_eq {acts : List Activation} {frames : List Frame}
    (h : FramesMatch acts frames) : acts.length = frames.length := by
  induction acts generalizing frames with
  | nil =>
    cases frames with
    | nil => rfl
    | cons fr frames => exact absurd h id
  | cons a acts ih =>
    cases frames with
    | nil => exact absurd h id
    | cons fr frames => rw [List.length_cons, List.length_cons, ih h.2]

namespace Config

theorem stack_eq (c : Config) :
    c.stack = stackOf c.callers ++ (c.current.locals ++ c.current.temps.reverse) := rfl

theorem stack_withTemps_cons (c : Config) (v : Value) :
    (c.withTemps (v :: c.current.temps)).stack = c.stack ++ [v] := by
  simp [stack_eq, withTemps, Activation.withTemps]

theorem height_eq (c : Config) :
    c.height = (stackOf c.callers).length + c.current.locals.length + c.current.temps.length := by
  simp [height, stack_eq, Nat.add_assoc]

/-- The stack below the `n` topmost values, and those values. -/
theorem stack_split (c : Config) (n : Nat) :
    c.stack = (c.withTemps (c.current.temps.drop n)).stack ++ (c.current.temps.take n).reverse := by
  have h : c.current.temps.reverse =
      (c.current.temps.drop n).reverse ++ (c.current.temps.take n).reverse := by
    rw [← List.reverse_append, List.take_append_drop]
  simp only [stack_eq, withTemps, Activation.withTemps, h, List.append_assoc]

end Config

namespace Represents

variable {m : Machine} {c : Config}

/-- Taking values off the stack moves the stack pointer only. -/
theorem dropTemps (h : Represents m c) (n : Nat) :
    Represents { m with sp := (c.withTemps (c.current.temps.drop n)).height }
      (c.withTemps (c.current.temps.drop n)) := by
  have hs : m.stack.Carries (c.withTemps (c.current.temps.drop n)).stack := by
    have hc := h.carries
    rw [c.stack_split n] at hc
    exact hc.of_append
  exact ⟨h.constants, h.globals, h.limits, h.tracing, h.lastPopped, h.written, h.untraced,
    h.fresh, rfl, h.size, hs, h.current.withTemps _, h.callers⟩

theorem pop (h : Represents m c) {v : Value} {temps : List Value}
    (ht : c.current.temps = v :: temps) :
    MachineM.pop m = .ok v { m with sp := (c.withTemps temps).height } ∧
      Represents { m with sp := (c.withTemps temps).height } (c.withTemps temps) := by
  have hd := h.dropTemps 1
  have hst := c.stack_split 1
  rw [ht] at hd hst
  simp only [List.drop_succ_cons, List.drop_zero, List.take_succ_cons, List.take_zero,
    List.reverse_singleton] at hd hst
  have hh : c.height = (c.withTemps temps).height + 1 := by
    rw [Config.height, hst]
    simp [Config.height]
  have hv : m.stack.at? (c.withTemps temps).height = some v := by
    apply h.carries.at?
    rw [hst]
    exact List.getElem?_concat_length
  have hsp : m.sp - 1 = (c.withTemps temps).height := by
    rw [h.sp, hh]
    omega
  have hz : m.sp ≠ 0 := by
    rw [h.sp, hh]
    omega
  refine ⟨?_, hd⟩
  simp [MachineM.pop, MachineM.slot, if_neg hz, hsp, hv]

theorem push (h : Represents m c) (v : Value) : (c.push v).Covers (MachineM.push v m) := by
  unfold Config.push
  split
  · rename_i ho
    refine ⟨m, ?_, h⟩
    have ho' : m.limits.stackSize ≤ m.sp := by rwa [h.limits, h.sp]
    simp [MachineM.push, if_pos ho']
  · rename_i ho
    have ho' : ¬ m.limits.stackSize ≤ (c.height : Int) := by rwa [h.limits]
    have hs : c.height < m.stack.size := by
      have := h.size
      omega
    have hp : place? m.stack.size (c.height : Int) = some c.height := by
      rw [place?_natCast, if_pos hs]
    refine ⟨{ m with stack := m.stack.set c.height v, sp := c.height + 1 }, ?_, ?_⟩
    · simp [MachineM.push, MachineM.setSlot, if_neg ho', h.sp, hp]
    · have hc := h.carries.push hs v
      rw [← c.stack_withTemps_cons] at hc
      have hh : (c.withTemps (v :: c.current.temps)).height = c.height + 1 := by
        rw [Config.height, c.stack_withTemps_cons, List.length_append]
        rfl
      exact ⟨h.constants, h.globals, h.limits, h.tracing, h.lastPopped, h.written,
        h.untraced, h.fresh, by rw [hh]; rfl, by rw [Slots.size_set]; exact h.size, hc,
        h.current.withTemps _, h.callers⟩

theorem top (h : Represents m c) {n : Nat} (hn : n ≤ c.current.temps.length) :
    MachineM.top n m = .ok (c.current.temps.take n).reverse m := by
  have hl : n ≤ c.stack.length := by
    have := c.height_eq
    simp only [Config.height] at this
    omega
  have hs : c.stack.drop (c.stack.length - n) = (c.current.temps.take n).reverse := by
    have hd : c.stack.length - n = (c.withTemps (c.current.temps.drop n)).stack.length := by
      have := congrArg List.length (c.stack_split n)
      rw [List.length_append, List.length_reverse, List.length_take, Nat.min_eq_left hn] at this
      omega
    rw [hd]
    nth_rewrite 1 [c.stack_split n]
    exact List.drop_left
  have hc := h.carries.slice hl
  simp [MachineM.top, h.sp, Config.height, hc, hs]

theorem popMany (h : Represents m c) {n : Nat} (hn : n ≤ c.current.temps.length) :
    ∃ m', MachineM.popMany n m = .ok (c.current.temps.take n).reverse m' ∧
      Represents m' (c.withTemps (c.current.temps.drop n)) := by
  refine ⟨_, ?_, h.dropTemps n⟩
  have hh : m.sp - n = (c.withTemps (c.current.temps.drop n)).height := by
    rw [h.sp, c.height_eq, (c.withTemps _).height_eq]
    simp only [Config.withTemps, Activation.withTemps, List.length_drop]
    omega
  simp [MachineM.popMany, h.top hn, hh]

theorem at?_local (h : Represents m c) {i : Nat} {v : Value}
    (hv : c.current.locals[i]? = some v) : m.stack.at? (m.frame.base + i) = some v := by
  have hi : i < c.current.locals.length := (List.getElem?_eq_some_iff.mp hv).1
  have hs : c.stack[(stackOf c.callers).length + i]? = some v := by
    rw [c.stack_eq, List.getElem?_append_right (by omega), Nat.add_sub_cancel_left,
      List.getElem?_append_left hi, hv]
  have ha := h.carries.at? hs
  rwa [Int.natCast_add, ← h.current.base] at ha

theorem getLocal (h : Represents m c) {i : Nat} {v : Value}
    (hv : c.current.locals[i]? = some v) : MachineM.slot (m.frame.base + i) m = .ok v m := by
  simp [MachineM.slot, h.at?_local hv]

theorem setLocal (h : Represents m c) {i : Nat} (hi : i < c.current.locals.length) (v : Value) :
    ∃ m', MachineM.setSlot (m.frame.base + i) v m = .ok () m' ∧
      Represents m'
        { c with current := { c.current with locals := c.current.locals.set i v } } := by
  have hl : (stackOf c.callers).length + i < c.stack.length := by
    have := c.height_eq
    simp only [Config.height] at this
    omega
  have hp : place? m.stack.size (m.frame.base + i) = some ((stackOf c.callers).length + i) := by
    have := h.carries.length_le
    rw [h.current.base, ← Int.natCast_add, place?_natCast, if_pos (by omega)]
  refine ⟨{ m with stack := m.stack.set ((stackOf c.callers).length + i) v }, ?_, ?_⟩
  · simp [MachineM.setSlot, hp]
  · have hs : c.stack.set ((stackOf c.callers).length + i) v =
        Config.stack { c with current := { c.current with locals := c.current.locals.set i v } } := by
      rw [c.stack_eq, List.set_append_right _ _ (by omega), Nat.add_sub_cancel_left,
        List.set_append_left _ _ hi]
      rfl
    have hc := h.carries.set hl v
    rw [hs] at hc
    have hh : m.sp = Config.height
        { c with current := { c.current with locals := c.current.locals.set i v } } := by
      rw [h.sp, c.height_eq, Config.height_eq]
      simp
    exact ⟨h.constants, h.globals, h.limits, h.tracing, h.lastPopped, h.written,
      h.untraced, h.fresh, hh, by rw [Slots.size_set]; exact h.size, hc,
      ⟨h.current.follows, h.current.base, h.current.self, by simpa using h.current.locals⟩,
      h.callers⟩

theorem setGlobal (h : Represents m c) (i : Nat) (v : Value) :
    Represents { m with globals := m.globals.set i v } { c with globals := c.globals.set i v } :=
  ⟨h.constants, by simp only [h.globals], h.limits, h.tracing, h.lastPopped, h.written,
    h.untraced, h.fresh, h.sp, h.size, h.carries, h.current, h.callers⟩

theorem setLastPopped (h : Represents m c) (v : Value) :
    Represents { m with lastPopped := v } { c with lastPopped := v } :=
  ⟨h.constants, h.globals, h.limits, h.tracing, rfl, h.written, h.untraced, h.fresh, h.sp,
    h.size, h.carries, h.current, h.callers⟩

theorem allocate (h : Represents m c) :
    Represents { m with fresh := m.fresh + 1 } { c with fresh := c.fresh + 1 } :=
  ⟨h.constants, h.globals, h.limits, h.tracing, h.lastPopped, h.written, h.untraced,
    by simp only [h.fresh], h.sp, h.size, h.carries, h.current, h.callers⟩

/-- The innermost call goes on elsewhere in its code. -/
theorem goOn (h : Represents m c) {ip : Nat} {code : List Piece}
    (hf : Follows m.frame.code ip code) :
    Represents { m with frame := { m.frame with ip } } (c.withCode code) :=
  ⟨h.constants, h.globals, h.limits, h.tracing, h.lastPopped, h.written, h.untraced,
    h.fresh, h.sp, h.size, h.carries, ⟨hf, h.current.base, h.current.self, h.current.locals⟩,
    h.callers⟩

theorem pushResult (h : Represents m c) (r : Except Stop Value) :
    (c.pushResult r).Covers ((MachineM.ofExcept r >>= MachineM.push) m) := by
  cases r with
  | ok v => exact h.push v
  | error s => exact ⟨m, rfl, h⟩

theorem pushFound (h : Represents m c) (v : Option Value) :
    (c.pushFound v).Covers ((MachineM.need v >>= MachineM.push) m) := by
  cases v with
  | none => trivial
  | some v => exact h.push v

theorem pushNew (h : Represents m c) (make : Nat → Value) :
    (c.pushNew make).Covers ((MachineM.allocate >>= fun id => MachineM.push (make id)) m) := by
  have hp := h.allocate.push (make c.fresh)
  have he : (MachineM.allocate >>= fun id => MachineM.push (make id)) m =
      MachineM.push (make c.fresh) { m with fresh := m.fresh + 1 } := by
    rw [← h.fresh]
    rfl
  rwa [he]

end Represents
end ClosureVM
