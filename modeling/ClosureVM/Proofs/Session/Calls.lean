import ClosureVM.Proofs.Code.Heights
import ClosureVM.Proofs.Machine.Frames
import ClosureVM.Proofs.Machine.Nesting
import ClosureVM.Proofs.Session.Incremental
import ClosureVM.Proofs.Session.StaleSlots

/-! A call leaves nothing behind but its result, however long it takes and however it ends. -/
namespace ClosureVM

namespace Machine

variable {m m' : Machine}

/-- The machine is about to call the value below `n` arguments. -/
def Calls (m : Machine) (n : Nat) : Prop := m.instruction? = some ⟨.call, [n]⟩

/-- The machine is about to return `v`. -/
def Returns (m : Machine) (v : Value) : Prop :=
  m.instruction? = some ⟨.returnNull, []⟩ ∧ v = .null ∨
    m.instruction? = some ⟨.returnValue, []⟩ ∧ m.stack.at? (m.sp - 1) = some v

/-- A machine that was about to make a call with `n` arguments is back behind that call. Callee and
arguments have given way to the result `v`, and what was below them is as before. -/
structure Resumes (m : Machine) (n : Nat) (v : Value) (m' : Machine) : Prop where
  frame : m'.frame = { m.frame with ip := m.frame.ip + 2 }
  callers : m'.callers = m.callers
  sp : m'.sp = m.sp - n
  result : m'.stack.at? (m'.sp - 1) = some v
  below : ∀ i : Nat, (i : Int) < m.sp - 1 - n → m'.stack.get? i = m.stack.get? i

/-- The frame of the program itself. -/
def main (m : Machine) : Frame := m.callers.getLast?.getD m.frame

instance (m : Machine) (n : Nat) : Decidable (m.Calls n) := inferInstanceAs (Decidable (_ = _))

theorem Advances.main_proto (h : m.Advances m') : m'.main.proto = m.main.proto := by
  cases h with
  | onward _ hframe hcallers =>
    rw [main, main, hframe, hcallers]
    cases m.callers.getLast? <;> rfl
  | call _ _ hcallers =>
    rw [main, main, hcallers, List.getLast?_cons]
    cases m.callers.getLast? <;> rfl
  | back hcallers =>
    rw [main, main, hcallers, List.getLast?_cons]
    rfl

end Machine

theorem Machine.Advances.callers {m m' : Machine} (h : m.Advances m') :
    m'.callers = m.callers ∨ (∃ fr, m'.callers = fr :: m.callers) ∨
      ∃ fr, m.callers = fr :: m'.callers := by
  cases h with
  | onward _ _ hcallers => exact .inl hcallers
  | call _ _ hcallers => exact .inr (.inl ⟨_, hcallers⟩)
  | back hcallers => exact .inr (.inr ⟨_, hcallers⟩)

private theorem Piece.isReturn_of_not_advances {i : Instruction} (hp : i.op.isPlain)
    (ha : i.op.advances = false) : (Piece.ins i).IsReturn := by
  rcases i with ⟨op, operands⟩
  cases op with
  | returnValue => exact .inl rfl
  | returnNull => exact .inr rfl
  | jump => cases hp
  | _ => cases ha

namespace Represents

variable {m m' : Machine} {c c' : Config} {n : Nat}

/-- The result takes the place of the callee. -/
theorem resumes (hr : Represents m c) (hr' : Represents m' c') {callee v : Value}
    {temps : List Value} (hd : c.current.temps.drop n = callee :: temps)
    (hs : c'.stack = (c.withTemps temps).stack ++ [v])
    (hf : m'.frame = { m.frame with ip := m.frame.ip + 2 }) (hc : m'.callers = m.callers) :
    m.Resumes n v m' := by
  have hlen : c.current.temps.length = n + temps.length + 1 := by
    have := congrArg List.length hd
    rw [List.length_drop, List.length_cons] at this
    omega
  have hsp : m.sp = (c.withTemps temps).height + n + 1 := by
    rw [hr.sp, c.height_eq, Config.height_eq, hlen]
    simp only [Config.withTemps, Activation.withTemps]
    omega
  have hsp' : m'.sp = (c.withTemps temps).height + 1 := by
    rw [hr'.sp, Config.height, hs, List.length_append]
    rfl
  refine ⟨hf, hc, by omega, ?_, fun i hi => ?_⟩
  · rw [hsp', Int.add_sub_cancel]
    apply hr'.carries.at?
    rw [hs]
    exact List.getElem?_concat_length
  · have hlt : i < (c.withTemps temps).stack.length := by
      change i < (c.withTemps temps).height
      omega
    have hv := List.getElem?_eq_getElem hlt
    have hbefore : c.stack[i]? = some ((c.withTemps temps).stack[i]) := by
      rw [c.stack_split n, hd]
      have hcons := (c.withTemps temps).stack_withTemps_cons callee
      rw [show (c.withTemps (callee :: temps)).stack = _ from hcons, List.append_assoc,
        List.getElem?_append_left hlt, hv]
    have hafter : c'.stack[i]? = some ((c.withTemps temps).stack[i]) := by
      rw [hs, List.getElem?_append_left hlt, hv]
    rw [hr'.carries i _ hafter, hr.carries i _ hbefore]

/-- A call that enters a function leaves the caller behind the call, with the callee on its
stack. -/
theorem enters (hr : Represents m c) (hcall : m.Calls n) (hn : m.Next m')
    (hd : m'.depth = m.depth + 1) (hr' : Represents m' c') (hnext : c.Next c') :
    m'.callers = { m.frame with ip := m.frame.ip + 2 } :: m.callers ∧
      ∃ caller callee temps, c.current.temps.drop n = callee :: temps ∧
        c'.callers = caller :: c.callers ∧ caller.locals = c.current.locals ∧
        caller.temps = callee :: temps := by
  obtain ⟨rest, hcode⟩ := hr.code_eq hcall rfl
  constructor
  · obtain ⟨m₁, hframe, hcallers, he⟩ := hr.step_eq_ok hcall hn.2
    rcases MachineM.call_eq_ok he with ⟨-, hc⟩ | ⟨-, hc⟩
    · rw [Machine.depth, Machine.depth, hc] at hd
      change m₁.callers.length + 1 = _ at hd
      rw [hcallers] at hd
      omega
    · rw [hc, ← hframe, ← hcallers]
      rfl
  · rw [hr'.depth_eq, hr.depth_eq] at hd
    have hsame {c₁ : Config} (hc : c₁.callers = c.callers) : c' ≠ c₁ := by
      rintro rfl
      rw [hc] at hd
      omega
    have hstep : (c.withCode rest).call n = .next c' := by
      unfold Config.Next Config.step at hnext
      rw [hcode] at hnext
      exact hnext
    unfold Config.call at hstep
    dsimp only at hstep
    split at hstep
    · cases hstep
    · rename_i callee temps hdrop
      split at hstep
      · obtain ⟨-, -, body, -, rfl⟩ := Config.enter_eq_next hstep
        exact ⟨_, _, temps, hdrop, rfl, rfl, rfl⟩
      · unfold Config.callBuiltin at hstep
        dsimp only at hstep
        split at hstep
        · cases hstep
        · exact absurd (Config.push_eq_next hstep) (hsame rfl)
      · cases hstep

/-- A builtin is called in one step. -/
theorem callsBuiltin (hr : Represents m c) (hcall : m.Calls n) {b : Builtin}
    (hb : m.stack.at? (m.sp - 1 - n) = some (.builtin b)) (hn : m.Next m')
    (hr' : Represents m' c') (hnext : c.Next c') :
    ∃ reply, b.apply m.fresh (m.stack.slice (m.sp - n) m.sp) = .ok reply ∧
      m.Resumes n reply.value m' := by
  obtain ⟨rest, hcode⟩ := hr.code_eq hcall rfl
  have hstep : (c.withCode rest).call n = .next c' := by
    unfold Config.Next Config.step at hnext
    rw [hcode] at hnext
    exact hnext
  cases hdrop : c.current.temps.drop n with
  | nil =>
    rw [Config.call, show (c.withCode rest).current.temps.drop n = [] from hdrop] at hstep
    cases hstep
  | cons callee temps =>
    obtain rfl : Value.builtin b = callee := Option.some.inj (hb.symm.trans (hr.at?_below hdrop))
    have hlen : n ≤ c.current.temps.length := by
      have := congrArg List.length hdrop
      rw [List.length_drop, List.length_cons] at this
      omega
    have hargs : (c.current.temps.take n).reverse = m.stack.slice (m.sp - n) m.sp := by
      have htop := hr.top hlen
      injection htop with hargs
      exact hargs.symm
    rw [Config.call, show (c.withCode rest).current.temps.drop n = _ from hdrop] at hstep
    change (c.withCode rest).callBuiltin b (c.current.temps.take n).reverse temps = _ at hstep
    rw [Config.callBuiltin, hargs, show (c.withCode rest).fresh = m.fresh from hr.fresh.symm]
      at hstep
    cases hreply : b.apply m.fresh (m.stack.slice (m.sp - n) m.sp) with
    | error f =>
      rw [hreply] at hstep
      cases hstep
    | ok reply =>
      rw [hreply] at hstep
      have hc' := Config.push_eq_next hstep
      have hstack : c'.stack = (c.withTemps temps).stack ++ [reply.value] := by
        rw [hc']
        exact (c.withTemps temps).stack_withTemps_cons reply.value
      have hcallers : c'.callers = c.callers := by rw [hc']; rfl
      obtain ⟨m₁, hframe, hcallers₁, he⟩ := hr.step_eq_ok hcall hn.2
      refine ⟨reply, rfl, ?_⟩
      rcases MachineM.call_eq_ok he with ⟨hf, hc⟩ | ⟨-, hc⟩
      · refine hr.resumes hr' hdrop hstack ?_ (hc.trans hcallers₁)
        rw [hf, ← hframe]
        rfl
      · have hdepth := congrArg List.length hc
        rw [List.length_cons, ← hr'.callers.length_eq, hcallers] at hdepth
        change _ = m₁.callers.length + 1 at hdepth
        rw [hcallers₁, ← hr.callers.length_eq] at hdepth
        omega

/-- Only a return ends a call. -/
theorem isReturn_of_depth_lt (hr : Represents m c) (hn : m.Next m') (hr' : Represents m' c')
    (hnext : c.Next c') (hd : m'.depth < m.depth) :
    ∃ i rest, c.current.code = .ins i :: rest ∧ (Piece.ins i).IsReturn := by
  have hfol := hr.current.follows
  unfold Config.Next Config.step at hnext
  have hsame (hc : c'.callers = c.callers) : False := by
    rw [hr.depth_eq, hr'.depth_eq, hc] at hd
    omega
  split at hnext
  · cases hnext
  · rename_i i rest hcode
    rw [hcode] at hfol
    obtain ⟨hi, hp, -⟩ := hfol.of_ins
    refine ⟨i, rest, hcode, ?_⟩
    cases ha : i.op.advances with
    | false =>
      exact Piece.isReturn_of_not_advances hp ha
    | true =>
      obtain ⟨m₁, -, hcallers, he⟩ := hr.step_eq_ok hi hn.2
      rw [ha] at he
      have hlen : m₁.callers.length ≤ m'.callers.length := by
        rcases MachineM.execute_advances_eq_ok hp ha he with ⟨-, hc⟩ | ⟨-, hc⟩
        · rw [hc]
          exact le_rfl
        · rw [hc]
          exact Nat.le_succ _
      unfold Machine.depth at hd
      rw [hcallers] at hlen
      omega
  · split at hnext
    · cases hnext
      exact (hsame rfl).elim
    · cases hnext
  · cases hnext
    exact (hsame rfl).elim

theorem returns (hr : Represents m c) (ht : c.Typed fun _ => True) (hn : m.Next m')
    (hr' : Represents m' c') (hnext : c.Next c') (hd : m'.depth < m.depth) :
    ∃ v, m.Returns v ∧ ∃ caller callee temps, c.callers = caller :: c'.callers ∧
      caller.temps = callee :: temps ∧ c'.current = caller.withTemps (v :: temps) := by
  obtain ⟨i, rest, hcode, hi⟩ := hr.isReturn_of_depth_lt hn hr' hnext hd
  have hfetch : m.instruction? = some i := by
    have hfol := hr.current.follows
    rw [hcode] at hfol
    exact hfol.of_ins.1
  have hleave {v : Value} (h : (c.withCode rest).leave v = .next c') :
      ∃ caller callee temps, c.callers = caller :: c'.callers ∧
        caller.temps = callee :: temps ∧ c'.current = caller.withTemps (v :: temps) := by
    obtain ⟨caller, callers, callee, temps, hcallers, htemps, rfl⟩ := Config.leave_eq_next h
    exact ⟨caller, callee, temps, hcallers, htemps, rfl⟩
  obtain ⟨e, hcheck, -⟩ := ht.current.code
  rw [hcode] at hcheck
  unfold Config.Next Config.step at hnext
  rw [hcode] at hnext
  have hshape : i = ⟨.returnValue, []⟩ ∨ i = ⟨.returnNull, []⟩ := by
    generalize c.current.temps.length = height at hcheck
    cases hcheck with
    | ins hu _ =>
      rcases (hu.of_isReturn hi).2 with ⟨rfl, -⟩ | rfl
      · exact .inl rfl
      · exact .inr rfl
    | closure => rcases hi with hi | hi <;> cases hi
  rcases hshape with rfl | rfl
  · change (c.withCode rest).execute .returnValue 0 0 = .next c' at hnext
    cases htemps : c.current.temps with
    | nil =>
      simp only [Config.execute, Config.withCode, htemps] at hnext
      cases hnext
    | cons v temps =>
      have htop : m.stack.at? (m.sp - 1) = some v := by
        have htop := @at?_below m c hr 0 v temps htemps
        rwa [Int.natCast_zero, Int.sub_zero] at htop
      refine ⟨v, .inr ⟨hfetch, htop⟩, hleave ?_⟩
      simp only [Config.execute, Config.withCode, htemps] at hnext
      exact hnext
  · exact ⟨.null, .inl ⟨hfetch, rfl⟩, hleave hnext⟩

/-- The calls at the bottom stay suspended while those above them run. -/
theorem suspended (hr : Represents m c) (ht : c.Typed fun _ => True) {frames : List Frame}
    {acts : List Activation} (hframes : frames <:+ m.callers) (hacts : acts <:+ c.callers)
    (hlen : acts.length = frames.length)
    (h : Machine.Reaches (fun x => frames.length < x.depth) m m') :
    ∃ c', Represents m' c' ∧ (c'.Typed fun _ => True) ∧ frames <:+ m'.callers ∧
      acts <:+ c'.callers := by
  induction h with
  | start _ => exact ⟨c, hr, ht, hframes, hacts⟩
  | @step m₁ m₂ _ hn hdepth ih =>
    obtain ⟨c₁, hr₁, ht₁, hframes₁, hacts₁⟩ := ih
    obtain ⟨c₂, hnext, hr₂, ht₂⟩ := hr₁.next ht₁ hn
    have hcallers : c₂.callers = c₁.callers ∨ (∃ a, c₂.callers = a :: c₁.callers) ∨
        ∃ a, c₁.callers = a :: c₂.callers := by
      rcases hnext.callers with h | h | ⟨a, h, -⟩
      · exact .inl h
      · exact .inr (.inl h)
      · exact .inr (.inr ⟨a, h⟩)
    refine ⟨c₂, hr₂, ht₂, suffix_of_callers hframes₁ (hr₁.advances hn).callers ?_,
      suffix_of_callers hacts₁ hcallers ?_⟩
    · exact Nat.le_of_lt_succ hdepth
    · rw [hr₂.depth_eq, ← hlen] at hdepth
      exact Nat.le_of_lt_succ hdepth

/-- A call that ends has replaced the callee and its arguments by what it returns. -/
theorem resumes_of_returns {m₁ m₂ : Machine} (hr : Represents m c) (ht : c.Typed fun _ => True)
    (hcall : m.Calls n) (hn : m.Next m₁) (hin : m₁.depth = m.depth + 1)
    (h : Machine.Reaches (fun x => m.depth < x.depth) m₁ m₂) (hn' : m₂.Next m')
    (hout : m'.depth = m.depth) : ∃ v, m₂.Returns v ∧ m.Resumes n v m' := by
  obtain ⟨c₁, hnext, hr₁, ht₁⟩ := hr.next ht hn
  obtain ⟨hcallers, caller, callee, temps, hdrop, hcallers₁, hlocals, htemps⟩ :=
    hr.enters hcall hn hin hr₁ hnext
  have hlen : (caller :: c.callers).length =
      ({ m.frame with ip := m.frame.ip + 2 } :: m.callers : List Frame).length := by
    rw [List.length_cons, List.length_cons, hr.callers.length_eq]
  obtain ⟨c₂, hr₂, ht₂, hframes, hacts⟩ := hr₁.suspended ht₁ (hcallers ▸ List.suffix_rfl)
    (hcallers₁ ▸ List.suffix_rfl) hlen h
  have hdepth : m'.depth < m₂.depth := hout ▸ h.property
  obtain ⟨c', hnext', hr', -⟩ := hr₂.next ht₂ hn'
  obtain ⟨v, hv, caller', callee', temps', hcallers', htemps', hcurrent⟩ :=
    hr₂.returns ht₂ hn' hr' hnext' hdepth
  -- the call has ended, so that nothing is left above the caller
  have hback : m₂.callers = m'.frame :: m'.callers := by
    cases hr₂.advances hn' with
    | onward _ _ hc =>
      unfold Machine.depth at hdepth
      rw [hc] at hdepth
      exact absurd hdepth (Nat.lt_irrefl _)
    | call _ _ hc =>
      unfold Machine.depth at hdepth
      rw [hc, List.length_cons] at hdepth
      omega
    | back hc => exact hc
  have hsize : m'.callers.length = m.callers.length := Nat.succ.inj hout
  rw [hback] at hframes
  have hframe := hframes.eq_of_length (by rw [List.length_cons, List.length_cons, hsize])
  have hact := hacts.eq_of_length (by
    rw [hr₂.callers.length_eq, hback, hlen, List.length_cons, List.length_cons, hsize])
  rw [hcallers'] at hact
  obtain ⟨hmf, hmc⟩ := List.cons.inj hframe
  obtain ⟨rfl, hcc⟩ := List.cons.inj hact
  obtain ⟨rfl, rfl⟩ := List.cons.inj (htemps.symm.trans htemps')
  have hstack : c'.stack = (c.withTemps temps).stack ++ [v] := by
    rw [← (c.withTemps temps).stack_withTemps_cons v, c'.stack_eq, Config.stack_eq, hcurrent, ← hcc]
    change _ ++ (caller.locals ++ _) = _
    rw [hlocals]
    rfl
  exact ⟨v, hv, hr.resumes hr' hdrop hstack hmf.symm hmc.symm⟩

/-- Below all calls stands the program, whose stack is not empty while it calls. -/
theorem exists_main {pool : Array Value} {N : Int → Prop} {a : Activation} {fr : Frame}
    {callers : List Activation} {frames : List Frame} (hf : Follows fr.code fr.ip a.code)
    (ht : a.Typed pool N a.temps.length) (hm : FramesMatch callers frames)
    (hts : ∀ b ∈ callers, b.Typed pool N b.temps.length) (hchain : CallChain a callers) :
    ∃ sh height rest, Follows (frames.getLast?.getD fr).code (frames.getLast?.getD fr).ip rest ∧
      Piece.Checked pool sh height rest 0 ∧
      (height = 0 → callers = [] ∧ a.locals = [] ∧ a.temps = []) := by
  induction callers generalizing a fr frames with
  | nil =>
    cases frames with
    | cons _ _ => cases hm
    | nil =>
      obtain ⟨e, hcheck, hend⟩ := ht.code
      rw [hend hchain.inFunction_eq_false] at hcheck
      exact ⟨_, _, _, hf, hcheck, fun h => ⟨rfl, hchain.2, List.length_eq_zero_iff.mp h⟩⟩
  | cons b callers ih =>
    cases frames with
    | nil => cases hm
    | cons fr' frames =>
      obtain ⟨hb, hm⟩ := hm
      obtain ⟨-, hne, hchain⟩ := hchain
      obtain ⟨htb, hts⟩ := List.forall_mem_cons.mp hts
      obtain ⟨sh, height, rest, hrest, hcheck, hzero⟩ := ih hb.follows htb hm hts hchain
      refine ⟨sh, height, rest, ?_, hcheck, fun h => absurd (hzero h).2.2 hne⟩
      rw [List.getLast?_cons]
      exact hrest

theorem empty (hr : Represents m c) (hcallers : c.callers = []) (hlocals : c.current.locals = [])
    (htemps : c.current.temps = []) : m.callers = [] ∧ m.sp = 0 := by
  constructor
  · apply List.length_eq_zero_iff.mp
    rw [← hr.callers.length_eq, hcallers]
    rfl
  · rw [hr.sp, c.height_eq, hcallers, hlocals, htemps]
    rfl

/-- Where the program's own code needs no values on the stack, there are none, and no calls. -/
theorem empty_of_main (hr : Represents m c) (ht : c.Typed fun _ => True) {pool : Array Value}
    {sh : Shape} {rest : List Piece} (hrest : Follows m.main.code m.main.ip rest)
    (hcheck : Piece.Checked pool sh 0 rest 0) : m.callers = [] ∧ m.sp = 0 := by
  obtain ⟨sh', height, rest', hrest', hcheck', hzero⟩ :=
    exists_main hr.current.follows ht.current hr.callers ht.callers ht.chain
  obtain ⟨hcallers, hlocals, htemps⟩ := hzero (hrest'.height_unique hrest hcheck' hcheck)
  exact hr.empty hcallers hlocals htemps

end Represents

/-- The program's own frame always runs the program. -/
theorem Machine.Reaches.main_proto {P : Machine → Prop} {m₀ m : Machine} {c₀ : Config}
    (h : Machine.Reaches P m₀ m) (hr : Represents m₀ c₀) (ht : c₀.Typed fun _ => True) :
    m.main.proto = m₀.main.proto := by
  induction h with
  | start _ => rfl
  | step hreach hn _ ih =>
    obtain ⟨c, -, hrep, -⟩ := hreach.represents hr ht (fun _ _ => trivial)
      fun m _ => m.measures_true
    exact (hrep.advances hn).main_proto.trans ih

/-- Behind the first of two parts, the second is to be executed. -/
theorem Follows.of_layout_append {ps qs : List Piece} (hf : Piece.Fits 0 (ps ++ qs)) :
    Follows (Piece.layout 0 (ps ++ qs)).toArray (Piece.layout 0 ps).toArray.size qs := by
  obtain ⟨hps, hqs⟩ := Piece.fits_append.mp hf
  rw [Nat.zero_add] at hqs
  have hlen := Piece.length_layout hps
  have hholds : Code.Holds (Piece.layout 0 (ps ++ qs)).toArray (Piece.totalSize ps)
      (Piece.layout (Piece.totalSize ps) qs) :=
    ⟨Piece.layout 0 ps, [], hlen, by rw [Piece.layout_append, Nat.zero_add, List.append_nil]⟩
  have hend : Follows (Piece.layout 0 (ps ++ qs)).toArray
      (Piece.totalSize ps + Piece.totalSize qs) [] := by
    rw [← Piece.length_layout hps, ← Piece.length_layout hqs, ← List.length_append,
      ← Nat.zero_add (Piece.totalSize ps), ← Piece.layout_append]
    exact .done
  have hrest := Follows.of_layout hholds hqs hend
  rw [List.append_nil] at hrest
  rw [List.size_toArray, hlen]
  exact hrest

/-- Every call that ends has replaced callee and arguments by its result, and nothing else that
its caller can see. Between the statements of a program, and once it has ended, the stack is
empty. -/
theorem Session.Reached.calls_resume {P : Machine → Prop} {s s₁ : Session} {program : Node}
    {code : Code} (limits : Limits) (tracing : Bool) (hs : Session.Reached P s)
    (hc : s.compile program = (.ok code, s₁)) :
    (∀ m, Machine.Reaches (fun _ => True) (s₁.machineWithin limits tracing code) m →
      ∀ n, m.Calls n →
        (∀ m₁ m₂ m', m.Next m₁ → m₁.depth = m.depth + 1 →
          Machine.Reaches (fun x => m.depth < x.depth) m₁ m₂ → m₂.Next m' →
          m'.depth = m.depth → ∃ v, m₂.Returns v ∧ m.Resumes n v m') ∧
        ∀ b m', m.stack.at? (m.sp - 1 - n) = some (.builtin b) → m.Next m' →
          ∃ reply, b.apply m.fresh (m.stack.slice (m.sp - n) m.sp) = .ok reply ∧
            m.Resumes n reply.value m') ∧
    (∀ line first rest, program = .program line (first ++ rest) →
      ∃ front s', s.compile (.program line first) = (.ok front, s') ∧
        front.toList <+: code.toList ∧
        ∀ m, Machine.Reaches (fun _ => True) (s₁.machineWithin limits tracing code) m →
          m.main.ip = front.size → m.callers = [] ∧ m.sp = 0) ∧
    ∀ fuel v m, (s₁.machineWithin limits tracing code).run? fuel = some (.ok v, m) →
      m.callers = [] ∧ m.sp = 0 := by
  have hsound := hs.sound (fun _ _ => trivial) fun m _ => m.measures_true
  obtain ⟨ps, hstart⟩ := hsound.start hc
  obtain ⟨hrep, ht⟩ := hstart limits tracing
  have hreached {m : Machine} (hm : Machine.Reaches (fun _ => True)
      (s₁.machineWithin limits tracing code) m) :
      ∃ c, Represents m c ∧ c.Typed fun _ => True := by
    obtain ⟨c, -, hr, ht⟩ := hm.represents hrep ht (fun _ _ => trivial) fun m _ => m.measures_true
    exact ⟨c, hr, ht⟩
  refine ⟨fun m hm n hcall => ?_, fun line first rest hprogram => ?_, fun fuel v m hrun => ?_⟩
  · obtain ⟨c, hr, ht⟩ := hreached hm
    refine ⟨fun m₁ m₂ m' => hr.resumes_of_returns ht hcall, fun b m' hb hn => ?_⟩
    obtain ⟨c', hnext, hr', -⟩ := hr.next ht hn
    exact hr.callsBuiltin hcall hb hn hr' hnext
  · obtain ⟨line', statements, ps, d, rfl, htrans, hf, hcode, -⟩ := compile_eq_ok.mp hc
    cases hprogram
    obtain ⟨qs, rs, d₁, rfl, hfirst, hrest⟩ := htrans.of_append
    obtain ⟨hqs, hrs⟩ := Piece.fits_append.mp hf
    have hclosed := (hfirst.leads ⟨hsound.names, trivial⟩ hqs).closed
    have hcheck := (hrest.leads hclosed (hrs.mono (Nat.zero_le _))).checked 0
    refine ⟨_, _, compile_statements line hfirst hqs, ?_, fun m hm hip => ?_⟩
    · rw [hcode, Piece.layout_append]
      exact List.prefix_append ..
    · obtain ⟨c, hr, ht'⟩ := hreached hm
      have hmain : m.main.code = code := congrArg Prototype.code (hm.main_proto hrep ht)
      have hfollows : Follows m.main.code m.main.ip rs := by
        rw [hmain, hip, hcode]
        exact .of_layout_append hf
      exact hr.empty_of_main ht' hfollows hcheck
  · obtain ⟨m₁, hm, ⟨hfin, -, rfl⟩ | ⟨-, stop, -, herr⟩⟩ := Machine.exists_of_run?_eq_some hrun
    · obtain ⟨c, hr, ht⟩ := hreached hm
      obtain ⟨hcurrent, hcallers⟩ := ht.of_code_eq_nil (hr.finished_iff.mp hfin)
      exact hr.empty hcallers (congrArg Activation.locals hcurrent)
        (congrArg Activation.temps hcurrent)
    · cases herr

/-- A function returns from within a sum, whose first term is still on its stack; its caller has a
term of another sum there. -/
theorem Session.Reached.calls_resume_early :
    ∃ (program : Node) (code : Code) (s₁ : Session) (m m₁ m₂ m' : Machine) (v : Value),
      Session.compile {} program = (.ok code, s₁) ∧ m.Calls 1 ∧ m.Next m₁ ∧
      m₂.sp = m₁.sp + 2 ∧ m₂.Next m' ∧ m₂.Returns v ∧ m.sp = 3 ∧ m.Resumes 1 v m' := by
  let program : Node := .program none [
    .letStmt none (.ident none "f") (.fnLit none [.ident none "x"] (.block none [
      .exprStmt none (.binary none (.intLit none (.int 1)) "+" (.ifExpr none (.ident none "x")
        (some (.block none [.returnStmt none (some (.intLit none (.int 5)))])) none))]) none),
    .exprStmt none (.binary none (.intLit none (.int 2)) "+"
      (.call none (.ident none "f") [.boolLit none true]))]
  have hwalk : ((Session.compile {} program).1.toOption.bind fun code =>
      (((Session.compile {} program).2.machineWithin {} false code).walk? (fun _ => true) 5).bind
        fun m => (m.walk? (fun _ => true) 1).bind
        fun m₁ => (m₁.walk? (fun x => decide (m.depth < x.depth)) 4).bind
        fun m₂ => (m₂.walk? (fun _ => true) 1).filter
        fun m' => decide (m.Calls 1 ∧ m₁.depth = m.depth + 1 ∧ m'.depth = m.depth ∧
          m₂.sp = m₁.sp + 2 ∧ m.sp = 3)).isSome = true := by
    decide +kernel
  clear_value program
  obtain ⟨m', hm'⟩ := Option.isSome_iff_exists.mp hwalk
  obtain ⟨code, hcode, hm'⟩ := Option.bind_eq_some_iff.mp hm'
  obtain ⟨m, hm, hm'⟩ := Option.bind_eq_some_iff.mp hm'
  obtain ⟨m₁, hm₁, hm'⟩ := Option.bind_eq_some_iff.mp hm'
  obtain ⟨m₂, hm₂, hm'⟩ := Option.bind_eq_some_iff.mp hm'
  obtain ⟨hm', hcond⟩ := Option.filter_eq_some_iff.mp hm'
  obtain ⟨hcall, hin, hout, htemps, hsp⟩ := of_decide_eq_true hcond
  have hc := compile_of_toOption hcode
  have hreach := (Machine.reaches_of_walk? hm).with fun _ _ => trivial
  have hrun := (Machine.reaches_of_walk? hm₂).with fun m hr => of_decide_eq_true hr.property
  have hn := Machine.next_of_walk? hm₁
  have hn' := Machine.next_of_walk? hm'
  have hcalls := calls_resume (P := fun _ => True) {} false (.new false false none) hc
  obtain ⟨v, hv, hresumes⟩ := (hcalls.1 m hreach 1 hcall).1 m₁ m₂ m' hn hin hrun hn' hout
  exact ⟨program, code, _, m, m₁, m₂, m', v, hc, hcall, hn, htemps, hn', hv, hsp, hresumes⟩

end ClosureVM
