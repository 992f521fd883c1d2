import ClosureVM.Proofs.Machine.Recast

/-! What single instructions do to a configuration, given what they find on its stack. -/
namespace ClosureVM

namespace Config
section

variable {c : Config} {rest : List Piece} {v w : Value} {vs temps : List Value}

theorem step_op {op : Opcode} {operands : List Nat}
    (h : c.current.code = .op op operands :: rest) :
    c.step = (c.withCode rest).execute op (operands.getD 0 0) (operands.getD 1 0) := by
  rw [step, h]

theorem push_of_room (h : c.height < c.limits.stackSize) (v : Value) :
    c.push v = .next (c.withTemps (v :: c.current.temps)) :=
  if_neg (Int.not_le.mpr h)

theorem step_pop (h : c.current.code = .op .pop :: rest) (ht : c.current.temps = v :: temps) :
    c.step = .next (Config.withTemps { c.withCode rest with
      lastPopped := if c.callers.isEmpty then v else c.lastPopped } temps) := by
  rw [step_op h, execute]
  simp only [withCode, ht]

theorem step_bang (h : c.current.code = .op .bang :: rest) (ht : c.current.temps = v :: temps) :
    c.step = ((c.withCode rest).withTemps temps).push (.bool !v.truthy) := by
  rw [step_op h, execute]
  simp only [withCode, ht]

theorem step_minus (h : c.current.code = .op .minus :: rest) (ht : c.current.temps = v :: temps) :
    c.step = ((c.withCode rest).withTemps temps).pushResult v.negate := by
  rw [step_op h, execute]
  simp only [withCode, ht]

theorem binary_eq (ht : c.current.temps = w :: v :: temps)
    (f : Value → Value → Except Stop Value) :
    c.binary f = (c.withTemps temps).pushResult (f v w) := by
  rw [binary, ht]

theorem step_setGlobal {a : Nat} (h : c.current.code = .op .setGlobal [a] :: rest)
    (ht : c.current.temps = v :: temps) (ha : a < c.globals.size) :
    c.step =
      .next (Config.withTemps { c.withCode rest with globals := c.globals.set a v } temps) := by
  rw [step_op h, execute]
  simp only [withCode, ht, List.getD_cons_zero, if_pos ha]

theorem step_setLocal {a : Nat} (h : c.current.code = .op .setLocal [a] :: rest)
    (ht : c.current.temps = v :: temps) (ha : a < c.current.locals.length) :
    c.step = .next { c with current := { c.current with
      code := rest, locals := c.current.locals.set a v, temps } } := by
  rw [step_op h, execute]
  simp only [withCode, ht, List.getD_cons_zero, if_pos ha]

theorem step_getFree {a id : Nat} {proto : Prototype} {free : List Value}
    (h : c.current.code = .op .getFree [a] :: rest)
    (hc : c.current.self = .closure id proto free) :
    c.step = (c.withCode rest).pushFound free[a]? := by
  rw [step_op h, execute]
  simp only [withCode, hc, List.getD_cons_zero]

theorem step_currentClosure {id : Nat} {proto : Prototype} {free : List Value}
    (h : c.current.code = .op .currentClosure :: rest)
    (hc : c.current.self = .closure id proto free) :
    c.step = (c.withCode rest).push c.current.self := by
  rw [step_op h, execute]
  simp only [withCode, hc]

theorem step_array (h : c.current.code = .op .array [vs.length] :: rest)
    (ht : c.current.temps = vs.reverse ++ temps) :
    c.step = ((c.withCode rest).withTemps temps).pushNew (.array · vs) := by
  have hlen : vs.length = vs.reverse.length := List.length_reverse.symm
  rw [step_op h, execute]
  simp only [withCode, ht, List.getD_cons_zero]
  rw [if_pos (by simp), hlen, List.drop_left, List.take_left, List.reverse_reverse]

section Hashes

variable (h : c.current.code = .op .hash [vs.length] :: rest)
  (ht : c.current.temps = vs.reverse ++ temps) (heven : vs.length % 2 = 0)
include h ht heven

theorem step_hash {entries : Entries} (he : Entries.ofValues [] vs = .ok entries) :
    c.step = ((c.withCode rest).withTemps temps).pushNew (.hash · entries) := by
  have hlen : vs.length = vs.reverse.length := List.length_reverse.symm
  rw [step_op h, execute]
  simp only [makeHash, withCode, ht, List.getD_cons_zero]
  rw [if_pos ⟨by simp, heven⟩, hlen, List.drop_left, List.take_left, List.reverse_reverse, he]

theorem step_hash_error {f : Fault} (he : Entries.ofValues [] vs = .error f) :
    c.step = .stop (.fault f) (c.withCode rest) := by
  have hlen : vs.length = vs.reverse.length := List.length_reverse.symm
  rw [step_op h, execute]
  simp only [makeHash, withCode, ht, List.getD_cons_zero]
  rw [if_pos ⟨by simp, heven⟩, hlen, List.take_left, List.reverse_reverse, he]

end Hashes

theorem step_closure {a : Nat} {proto : Prototype}
    (h : c.current.code = .op .closure [a, vs.length] :: rest)
    (ht : c.current.temps = vs.reverse ++ temps) (hp : c.constants[a]? = some (.function proto)) :
    c.step = ((c.withCode rest).withTemps temps).pushNew (.closure · proto vs) := by
  have hlen : vs.length = vs.reverse.length := List.length_reverse.symm
  rw [step_op h, execute]
  simp only [makeClosure, withCode, ht, hp, List.getD_cons_zero, List.getD_cons_succ]
  rw [if_pos (by simp), hlen, List.drop_left, List.take_left, List.reverse_reverse]

theorem step_returnValue (h : c.current.code = .op .returnValue :: rest)
    (ht : c.current.temps = v :: temps) : c.step = c.leave v := by
  rw [step_op h, execute]
  simp only [withCode, ht]
  rfl

end
end Config

/-- What a call of a value comes to. -/
noncomputable def Config.invoke (c : Config) (args temps : List Value) (callee : Value) : Effect :=
  match callee with
  | .closure _ proto _ => c.enter callee proto args temps
  | .builtin b => c.callBuiltin b args temps
  | v => .stop (.fault (.calling v.kind)) c

/-- The value below the arguments is called. -/
theorem Config.step_call {c : Config} {rest : List Piece} {callee : Value} {vs temps : List Value}
    (h : c.current.code = .op .call [vs.length] :: rest)
    (ht : c.current.temps = vs.reverse ++ callee :: temps) :
    c.step = (c.withCode rest).invoke vs temps callee := by
  have hlen : vs.length = vs.reverse.length := List.length_reverse.symm
  rw [step_op h]
  change (c.withCode rest).call vs.length = _
  rw [call, show (c.withCode rest).current.temps = vs.reverse ++ callee :: temps from ht, hlen,
    List.take_left, List.drop_left, List.reverse_reverse]
  rfl

section Calls

variable {c : Config} {callee : Value} {proto : Prototype} {args temps : List Value}
  {body : List Piece} (hb : proto.HasBody body) (ha : (args.length : Int) = proto.numParams)
  (hn : (args.length : Int) ≤ proto.numLocals)
include hb ha hn

/-- With the right number of arguments, and room on the stack and for one more frame, a closure is
entered. -/
theorem Config.enter_of_room (hs : c.height - args.length + proto.numLocals ≤ c.limits.stackSize)
    (hm : c.callers.length + 1 < c.limits.maxFrames) :
    c.enter callee proto args temps = .next { c with
      current := { self := callee, code := body, locals := args ++
        List.replicate (proto.numLocals.toNat - args.length) .null }
      callers := c.current.withTemps (callee :: temps) :: c.callers } := by
  unfold enter
  dsimp only
  rw [if_neg (not_not_intro ha), if_neg (Int.not_lt.mpr hs), if_neg (Int.not_le.mpr hm),
    hb.body?_eq]
  exact if_pos hn

/-- Without that room, there is an overflow. -/
theorem Config.enter_cases :
    (∃ s, c.enter callee proto args temps = .stop s c ∧ s.IsOverflow c.limits.maxFrames) ∨
      ¬ c.limits.maxFrames ≤ c.callers.length + 1 ∧
        c.enter callee proto args temps = .next { c with
          current := { self := callee, code := body, locals := args ++
            List.replicate (proto.numLocals.toNat - args.length) .null }
          callers := c.current.withTemps (callee :: temps) :: c.callers } := by
  by_cases hs : c.limits.stackSize < c.height - args.length + proto.numLocals
  · refine .inl ⟨.fault .stackOverflow, ?_, .inl rfl⟩
    unfold enter
    dsimp only
    rw [if_neg (not_not_intro ha), if_pos hs]
  · by_cases hm : c.limits.maxFrames ≤ c.callers.length + 1
    · refine .inl ⟨.fault (.frameOverflow c.limits.maxFrames), ?_, .inr rfl⟩
      unfold enter
      dsimp only
      rw [if_neg (not_not_intro ha), if_neg hs, if_pos hm]
    · exact .inr ⟨hm, enter_of_room hb ha hn (Int.not_lt.mp hs) (Int.not_le.mp hm)⟩

end Calls

end ClosureVM
