import ClosureVM.Proofs.Compiler.Interrupted

/-! Programs that are rejected leave no trace in a session. -/
namespace ClosureVM

/-- What came of a program: its code, if it was compiled, its value or error, and the lines it
wrote. -/
structure Turn where
  program : Node
  code : Option Code
  outcome : Except SessionError Value
  written : Array Output

/-- The program had an error that kept it from being compiled. -/
def Turn.rejected (t : Turn) : Bool :=
  match t.outcome with
  | .error (.compile (.error _)) => true
  | _ => false

namespace Session

/-- Executes a program for at most `fuel` steps. -/
def turn? (fuel : Nat) (s : Session) (program : Node) : Option (Turn × Session) :=
  (s.execute? fuel program).map fun (outcome, s') =>
    ({ program, outcome
       code := (s.compile program).1.toOption
       written := s'.output.extract s.output.size s'.output.size }, s')

/-- Executes programs one after the other. -/
def turns? (fuel : Nat) (s : Session) : List Node → Option (List Turn × Session)
  | [] => some ([], s)
  | program :: rest =>
    (s.turn? fuel program).bind fun (t, s') =>
      (s'.turns? fuel rest).map fun (ts, s'') => (t :: ts, s'')

variable {fuel : Nat} {s s' : Session}

theorem turns?_cons {program : Node} {rest : List Node} {ts : List Turn} :
    s.turns? fuel (program :: rest) = some (ts, s') ↔
      ∃ t s₁ ts', s.turn? fuel program = some (t, s₁) ∧ s₁.turns? fuel rest = some (ts', s') ∧
        ts = t :: ts' := by
  rw [turns?, Option.bind_eq_some_iff]
  constructor
  · rintro ⟨⟨t, s₁⟩, ht, hrest⟩
    obtain ⟨⟨ts', s₂⟩, hts, ⟨⟩⟩ := Option.map_eq_some_iff.mp hrest
    exact ⟨t, s₁, ts', ht, hts, rfl⟩
  · rintro ⟨t, s₁, ts', ht, hts, rfl⟩
    exact ⟨(t, s₁), ht, Option.map_eq_some_iff.mpr ⟨(ts', s'), hts, rfl⟩⟩

theorem turn?_program {program : Node} {t : Turn} (h : s.turn? fuel program = some (t, s')) :
    t.program = program := by
  obtain ⟨_, _, ⟨⟩⟩ := Option.map_eq_some_iff.mp h
  rfl

/-- A turn that is rejected leaves the session as it was. -/
theorem turn?_rejected {program : Node} {t : Turn} (h : s.turn? fuel program = some (t, s'))
    (hr : t.rejected = true) : s' = s := by
  obtain ⟨⟨outcome, s₁⟩, he, ⟨⟩⟩ := Option.map_eq_some_iff.mp h
  rw [execute?] at he
  match hc : s.compile program with
  | (.error stop, s₂) =>
    rw [hc] at he
    cases he
    cases stop with
    | error e => exact compile_error hc
    | missing what => cases hr
  | (.ok code, s₂) =>
    rw [hc] at he
    obtain ⟨⟨r, s₃⟩, -, ⟨⟩⟩ := Option.map_eq_some_iff.mp he
    cases r <;> cases hr

private theorem turns?_programs {programs : List Node} {ts : List Turn}
    (h : s.turns? fuel programs = some (ts, s')) : ts.map Turn.program = programs := by
  induction programs generalizing s ts with
  | nil =>
    cases h
    rfl
  | cons program rest ih =>
    obtain ⟨t, s₁, ts', ht, hts, rfl⟩ := turns?_cons.mp h
    rw [List.map_cons, ih hts, turn?_program ht]

/-- Without the programs that are rejected, everything else goes as before. -/
theorem turns?_filter {programs : List Node} {ts : List Turn}
    (h : s.turns? fuel programs = some (ts, s')) :
    s.turns? fuel ((ts.filter (!·.rejected)).map Turn.program) =
      some (ts.filter (!·.rejected), s') := by
  induction programs generalizing s ts with
  | nil =>
    cases h
    rfl
  | cons program rest ih =>
    obtain ⟨t, s₁, ts', ht, hts, rfl⟩ := turns?_cons.mp h
    cases hr : t.rejected with
    | true =>
      obtain rfl := turn?_rejected ht hr
      rw [List.filter_cons_of_neg (by simp [hr])]
      exact ih hts
    | false =>
      rw [List.filter_cons_of_pos (by simp [hr]), List.map_cons, turn?_program ht]
      exact turns?_cons.mpr ⟨t, s₁, _, ht, ih hts, rfl⟩

/-- A program with an error leaves a session exactly as it was, whatever the session and the
program. Hence programs that are rejected can be left out of any history: the code, the value or
error and the output of all others stay the same, and so does the session in the end. -/
theorem rejected_no_trace (s : Session) :
    (∀ program e s', s.compile program = (.error (.error e), s') → s' = s) ∧
    ∀ fuel programs ts s', s.turns? fuel programs = some (ts, s') →
      ts.map Turn.program = programs ∧
      s.turns? fuel ((ts.filter (!·.rejected)).map Turn.program) =
        some (ts.filter (!·.rejected), s') :=
  ⟨fun _ _ _ => compile_error, fun _ _ _ _ h => ⟨turns?_programs h, turns?_filter h⟩⟩

end Session

end ClosureVM
