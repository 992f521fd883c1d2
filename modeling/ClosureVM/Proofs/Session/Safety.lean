import ClosureVM.Proofs.Session.History

/-! Compiled code never goes wrong. -/
namespace ClosureVM

/-- No string and no array on the stack has more elements than a word can count. -/
def Machine.Representable (m : Machine) : Prop := m.Measures IsWord

instance : DecidablePred (Value.Measures IsWord)
  | .str s => inferInstanceAs (Decidable (IsWord s.length))
  | .array _ elements => inferInstanceAs (Decidable (IsWord elements.length))
  | .null | .bool _ | .int _ | .hash .. | .function _ | .closure .. | .builtin _ => .isTrue trivial

/-- Places that were never written need no check. -/
theorem Machine.representable_of_cells {m : Machine}
    (h : ∀ v ∈ m.stack.cells.toList, v.Measures IsWord) : m.Representable := by
  intro i v hv
  rw [← (Slots.get?_eq_some hv).2, Array.getD_eq_getD_getElem?]
  cases hi : m.stack.cells[i]? with
  | none => trivial
  | some w => exact h w (Array.mem_toList_iff.mpr (Array.mem_of_getElem? hi))

/-- The next step succeeds, or fails with an error of the program or for want of resources. An
overflow too long to be reported is possible only if machines with the property `P` may hold
strings or arrays that outgrow the words. -/
def Machine.StepsSafely (P : Machine → Prop) (m : Machine) : Prop :=
  match MachineM.step m with
  | .ok _ _ => True
  | .error (.fault f) _ => f.IsLanguage ∨ f.IsResource
  | .error .unwritable _ => ¬ ∀ m, P m → m.Representable
  | .error _ _ => False

theorem FramesMatch.base_le {acts : List Activation} {frames : List Frame}
    (h : FramesMatch acts frames) :
    ∀ fr ∈ frames, 0 ≤ fr.base ∧ fr.base + fr.proto.numLocals ≤ (stackOf acts).length := by
  induction acts generalizing frames with
  | nil =>
    cases frames with
    | nil => exact List.forall_mem_nil _
    | cons fr frames => exact absurd h id
  | cons a acts ih =>
    cases frames with
    | nil => exact absurd h id
    | cons fr frames =>
      obtain ⟨hm, hrest⟩ := h
      have hlen : (stackOf (a :: acts)).length =
          (stackOf acts).length + a.locals.length + a.temps.length := by
        simp [stackOf, Activation.values, Nat.add_assoc]
      refine List.forall_mem_cons.mpr ⟨?_, fun fr hfr => ?_⟩
      · rw [hm.base, hm.locals]
        omega
      · have := ih hrest fr hfr
        omega

/-- The stack pointer stays within the stack, and above the locals of every call. -/
theorem Represents.within {m : Machine} {c : Config} (h : Represents m c) :
    (0 ≤ m.sp ∧ m.sp ≤ max 0 c.limits.stackSize) ∧
      ∀ fr ∈ m.frame :: m.callers, 0 ≤ fr.base ∧ fr.base + fr.proto.numLocals ≤ m.sp := by
  have hl := h.carries.length_le
  have hsize := h.size
  have hframes : FramesMatch (c.current :: c.callers) (m.frame :: m.callers) :=
    ⟨h.current, h.callers⟩
  rw [h.sp]
  refine ⟨?_, hframes.base_le⟩
  simp only [Config.height]
  omega

/-- Whatever a session was given before, the code of a program never goes wrong: not in its steps,
and not in its use of the stack. -/
theorem Session.Reached.step_safe {P : Machine → Prop} {s s₁ : Session} {program : Node}
    {code : Code} {limits : Limits} {tracing : Bool} {m : Machine} (hs : Session.Reached P s)
    (hc : s.compile program = (.ok code, s₁))
    (hm : Machine.Reaches P (s₁.machineWithin limits tracing code) m) :
    ((0 ≤ m.sp ∧ m.sp ≤ max 0 limits.stackSize) ∧
      ∀ fr ∈ m.frame :: m.callers, 0 ≤ fr.base ∧ fr.base + fr.proto.numLocals ≤ m.sp) ∧
    (m.finished = false → m.StepsSafely P) := by
  -- the integers are words, unless something outgrows them
  let N (n : Int) : Prop := IsWord n ∨ ¬ ∀ m, P m → m.Representable
  have hN : ∀ n, IsWord n → N n := fun n => .inl
  have hP : ∀ m, P m → m.Measures N := by
    intro m hm i v hv
    by_cases hrep : ∀ m, P m → m.Representable
    · exact (hrep m hm i v hv).mono hN
    · cases v with
      | str | array => exact .inr hrep
      | _ => trivial
  have hsound := hs.sound hN hP
  obtain ⟨ps, hstart⟩ := hsound.start hc
  obtain ⟨hrep, ht⟩ := hstart limits tracing
  obtain ⟨c, hsteps, hrep', ht'⟩ := hm.represents hrep ht hN hP
  have hlimits : c.limits = limits := (Config.keeps_of_steps hsteps).2.1
  refine ⟨hlimits ▸ hrep'.within, fun hf => ?_⟩
  have hstep := hrep'.step_ordinary ht' hf hN (hP m hm.property)
  unfold Machine.StepsSafely
  cases he : MachineM.step m with
  | ok u m' => trivial
  | error stop m' =>
    rw [he] at hstep
    cases stop with
    | fault f => exact hstep.1
    | unwritable => exact fun hrep => hstep.1 fun n hn => hn.resolve_right (not_not_intro hrep)
    | _ => exact hstep.1

/-- A function is left behind by a program that failed in a call of it. Another call of it is about
to fail in the same way, with two locals and two more values on its part of the stack. -/
theorem Session.Reached.step_safe_in_call :
    ∃ (first second : Node) (s s₁ : Session) (e : SessionError) (code : Code) (m m' : Machine)
      (e' : Failure),
      Session.execute? 40 {} first = some (.error e, s) ∧
      s.compile second = (.ok code, s₁) ∧
      Machine.Reaches Machine.Representable (s₁.machineWithin ⟨8, 2, none⟩ false code) m ∧
      m.depth = 2 ∧ m.frame.base = 1 ∧ m.frame.proto.numLocals = 2 ∧ m.sp = 5 ∧
      m.finished = false ∧ m.run? 1 = some (.error e', m') ∧
      ((0 ≤ m.sp ∧ m.sp ≤ max 0 8) ∧
        ∀ fr ∈ m.frame :: m.callers, 0 ≤ fr.base ∧ fr.base + fr.proto.numLocals ≤ m.sp) ∧
      m.StepsSafely Machine.Representable := by
  let first : Node := .program none [
    .letStmt none (.ident none "f") (.fnLit none [.ident none "a"] (.block none [
      .letStmt none (.ident none "b") (.binary none (.ident none "a") "+" (.intLit none (.int 1))),
      .exprStmt none (.binary none (.ident none "b") "+" (.boolLit none true))]) none),
    .exprStmt none (.call none (.ident none "f") [.intLit none (.int 1)])]
  let second : Node :=
    .program none [.exprStmt none (.call none (.ident none "f") [.intLit none (.int 2)])]
  let check (m : Machine) : Bool := decide (∀ v ∈ m.stack.cells.toList, v.Measures IsWord)
  have hpasses : ((Session.compile {} first).1.toOption.all fun code =>
      ((Session.compile {} first).2.machine code).passes check 40) = true := by
    decide +kernel
  have hwalk : (((Session.execute? 40 {} first).filter fun x => x.1.toOption.isNone).bind fun x =>
      (x.2.compile second).1.toOption.bind fun code =>
      (((x.2.compile second).2.machineWithin ⟨8, 2, none⟩ false code).walk? check 9).bind fun m =>
      (m.run? 1).filter fun y => y.1.toOption.isNone && decide (m.depth = 2 ∧ m.frame.base = 1 ∧
        m.frame.proto.numLocals = 2 ∧ m.sp = 5 ∧ m.finished = false)).isSome = true := by
    decide +kernel
  have hcheck (m : Machine) (h : check m = true) : m.Representable :=
    Machine.representable_of_cells (of_decide_eq_true h)
  clear_value first second check
  obtain ⟨⟨r', m'⟩, hm'⟩ := Option.isSome_iff_exists.mp hwalk
  obtain ⟨⟨r, s⟩, hs, hm'⟩ := Option.bind_eq_some_iff.mp hm'
  obtain ⟨hs, hr⟩ := Option.filter_eq_some_iff.mp hs
  obtain ⟨code, hcode, hm'⟩ := Option.bind_eq_some_iff.mp hm'
  obtain ⟨m, hm, hm'⟩ := Option.bind_eq_some_iff.mp hm'
  obtain ⟨hrun, hcond⟩ := Option.filter_eq_some_iff.mp hm'
  obtain ⟨hr', hcond⟩ := Bool.and_eq_true_iff.mp hcond
  obtain ⟨hdepth, hbase, hlocals, hsp, hf⟩ := of_decide_eq_true hcond
  have hc := compile_of_toOption hcode
  have hreach := (Machine.reaches_of_walk? hm).with fun m hr => hcheck m hr.property
  have hreached : Session.Reached Machine.Representable s := by
    refine .execute (.new false false none) hs fun code s₁ m hc hm => hcheck m ?_
    rw [hc] at hpasses
    exact hm.check_of_passes hpasses
  have hsafe := step_safe hreached hc hreach
  cases r with
  | ok v => cases hr
  | error e =>
    cases r' with
    | ok v => cases hr'
    | error e' =>
      exact ⟨first, second, s, _, e, code, m, m', e', hs, hc, hreach, hdepth, hbase, hlocals, hsp,
        hf, hrun, hsafe.1, hsafe.2 hf⟩

end ClosureVM
