import ClosureVM.Proofs.Machine.Words
import ClosureVM.Proofs.Session.StaleSlots

/-! The integers of a session are words, whatever programs it was given. -/
namespace ClosureVM

/-- All integers among the constants and in the globals are words. -/
structure Session.Words (s : Session) : Prop where
  constants : ∀ v ∈ s.constants, v.Words
  globals : s.globals.Words

namespace Session

variable {s s₁ : Session} {program : Node}

theorem Words.compile (h : s.Words) {r : Except CompileStop Code}
    (hc : s.compile program = (r, s₁)) : s₁.Words := by
  obtain ⟨hk, he⟩ := compile_continues hc
  constructor
  · intro v hv
    rcases hk.added v hv with hv | hv | ⟨proto, rfl⟩
    · exact h.constants v hv
    · exact hv.words
    · exact Value.words_function proto
  · rw [he]
    exact h.globals

theorem Words.machineWithin (h : s.Words) (limits : Limits) (tracing : Bool) (code : Code) :
    (s.machineWithin limits tracing code).Words :=
  .new h.constants h.globals code limits tracing s.fresh

theorem Words.after (h : s.Words) {limits : Limits} {tracing : Bool} {code : Code} {fuel : Nat}
    {r : Except Failure Value} {m : Machine}
    (hr : (s.machineWithin limits tracing code).run? fuel = some (r, m))
    (hP : ∀ m, Machine.Reaches (fun _ => True) (s.machineWithin limits tracing code) m →
      m.Representable) : (s.after m).Words :=
  ⟨h.constants, (Machine.words_of_run? (h.machineWithin limits tracing code) hr hP).globals⟩

theorem Reached.words (hs : Reached Machine.Representable s) : s.Words := by
  refine hs.preserves (fun color tracing maxSteps => ?_) (fun _ h hc => h.compile hc)
    fun _ h hc hr hP => (h.compile hc).after hr hP
  refine ⟨fun v hv => ?_, Slots.words_of_size _⟩
  exact absurd hv (Array.not_mem_empty v)

/-- Whatever a session was given before, and as long as no string or array outgrows the words, all
integers that a program has to do with are words: in every machine that it goes through, and in
what a failing step leaves behind. -/
theorem Reached.integers_are_words {code : Code} {limits : Limits} {tracing : Bool} {m : Machine}
    (hs : Reached Machine.Representable s) (hc : s.compile program = (.ok code, s₁))
    (hm : Machine.Reaches Machine.Representable (s₁.machineWithin limits tracing code) m) :
    m.Words ∧ ∀ stop m', MachineM.step m = .error stop m' → m'.Words := by
  have hwords : m.Words := hm.words ((hs.words.compile hc).machineWithin limits tracing code)
  refine ⟨hwords, fun stop m' hstop => ?_⟩
  have hstep := hwords.step hm.property
  rw [hstop] at hstep
  exact hstep

/-- A hash with an integer as its key, and with the size of a string and the least word in an array
as its value. -/
theorem Reached.integers_are_words_hash :
    ∃ (program : Node) (code : Code) (s₁ : Session) (m : Machine),
      Session.compile {} program = (.ok code, s₁) ∧
      Machine.Reaches Machine.Representable (s₁.machineWithin {} false code) m ∧
      (m.stack.get? 0).map Value.inspect = some "\x7b7: [2, -9223372036854775808]\x7d" ∧
      m.Words := by
  let program : Node := .program none [
    .letStmt none (.ident none "a") (.arrayLit none [
      .call none (.ident none "len") [.strLit none "ab"],
      .binary none (.unary none "-" (.intLit none (.int 9223372036854775807))) "-"
        (.intLit none (.int 1))]),
    .exprStmt none (.hashLit none [(.intLit none (.int 7), .ident none "a")])]
  have hwalk : ((Session.compile {} program).1.toOption.bind fun code =>
      (((Session.compile {} program).2.machineWithin {} false code).walk?
        (fun m => decide (∀ v ∈ m.stack.cells.toList, v.Measures IsWord)) 12).filter
        fun m => decide ((m.stack.get? 0).map Value.inspect =
          some "\x7b7: [2, -9223372036854775808]\x7d")).isSome = true := by
    decide +kernel
  clear_value program
  obtain ⟨m, hm⟩ := Option.isSome_iff_exists.mp hwalk
  obtain ⟨code, hcode, hm⟩ := Option.bind_eq_some_iff.mp hm
  obtain ⟨hm, htext⟩ := Option.filter_eq_some_iff.mp hm
  have hc := compile_of_toOption hcode
  have hreach : Machine.Reaches Machine.Representable _ m :=
    (Machine.reaches_of_walk? hm).with fun m hr =>
      Machine.representable_of_cells (of_decide_eq_true hr.property)
  exact ⟨program, code, _, m, hc, hreach, of_decide_eq_true htext,
    (integers_are_words (.new false false none) hc hreach).1⟩

end Session

end ClosureVM
