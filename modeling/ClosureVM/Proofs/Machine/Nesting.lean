import ClosureVM.Proofs.Machine.Runs

/-! Which of the nested calls a step concerns: the innermost one goes on, and those below it stay
as they are. -/
namespace ClosureVM

/-- The code that can come next in a call, and the local that is set before, if any. -/
inductive Piece.GoesOn : List Piece → Option Nat → List Piece → Prop
  | ins (i : Instruction) (rest : List Piece) :
    GoesOn (.ins i :: rest) (i.op.local? (i.operands.getD 0 0)) rest
  | first (t e rest : List Piece) : GoesOn (.branch t e :: rest) none (t ++ .skip :: rest)
  | second (t e rest : List Piece) : GoesOn (.branch t e :: rest) none (e ++ rest)
  | skip (rest : List Piece) : GoesOn (.skip :: rest) none rest

namespace Config

variable {c c' : Config}

theorem Next.moves (h : c.Next c') :
    ∃ s code, Piece.GoesOn c.current.code s code ∧ (c.withCode code).Moves s c' := by
  have hjump (temps : List Value) (code : List Piece) :
      (c.withCode code).Moves none ((c.withTemps temps).withCode code) :=
    .stays ((c.withCode code).stays_withTemps temps)
  unfold Next step at h
  split at h
  · cases h
  · rename_i i rest hcode
    rw [hcode]
    exact ⟨_, rest, .ins i rest, (execute_shape (c.withCode rest) _ _ _).moves h⟩
  · rename_i t e rest hcode
    rw [hcode]
    split at h
    · cases h
      split
      · exact ⟨none, _, .first t e rest, hjump _ _⟩
      · exact ⟨none, _, .second t e rest, hjump _ _⟩
    · cases h
  · rename_i rest hcode
    rw [hcode]
    cases h
    exact ⟨none, rest, .skip rest, .stays .rfl⟩

/-- A step goes on within the innermost call, enters another one, or leaves for the caller. -/
theorem Next.callers (h : c.Next c') :
    c'.callers = c.callers ∨ (∃ a, c'.callers = a :: c.callers) ∨
      ∃ a, c.callers = a :: c'.callers ∧ c'.current.code = a.code ∧
        c'.current.locals = a.locals := by
  obtain ⟨s, code, -, hm⟩ := h.moves
  cases hm with
  | stays hs => exact .inl hs.callers
  | enters _ _ _ hcallers => exact .inr (.inl ⟨_, hcallers⟩)
  | leaves hcallers _ hcode hlocals => exact .inr (.inr ⟨_, hcallers, hcode, hlocals⟩)

end Config

/-- The bottom of nested calls stays where it is as long as it is not reached. -/
theorem suffix_of_callers {α : Type} {l l' bottom : List α} (h : bottom <:+ l)
    (hl : l' = l ∨ (∃ a, l' = a :: l) ∨ ∃ a, l = a :: l') (hn : bottom.length ≤ l'.length) :
    bottom <:+ l' := by
  rcases hl with rfl | ⟨a, rfl⟩ | ⟨a, rfl⟩
  · exact h
  · exact h.trans (List.suffix_cons a l)
  · rcases List.suffix_cons_iff.mp h with rfl | h
    · rw [List.length_cons] at hn
      omega
    · exact h

end ClosureVM
