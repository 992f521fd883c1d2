import ClosureVM.Proofs.Machine.Activation

/-! What a step of a configuration can do to its calls: go on within the innermost one, enter a
new one, or leave for the caller. -/
namespace ClosureVM

namespace Config

/-- Still in the same place of the same call. Only the local `s`, if any, is another. -/
structure Stays (s : Option Nat) (c c' : Config) : Prop where
  constants : c'.constants = c.constants
  limits : c'.limits = c.limits
  tracing : c'.tracing = c.tracing
  size : c'.globals.size = c.globals.size
  callers : c'.callers = c.callers
  self : c'.current.self = c.current.self
  code : c'.current.code = c.current.code
  locals : ∀ i, s ≠ some i → c'.current.locals[i]? = c.current.locals[i]?

theorem Stays.rfl {s : Option Nat} {c : Config} : c.Stays s c :=
  ⟨.refl _, .refl _, .refl _, .refl _, .refl _, .refl _, .refl _, fun _ _ => .refl _⟩

theorem stays_withTemps {s : Option Nat} (c : Config) (temps : List Value) :
    c.Stays s (c.withTemps temps) :=
  ⟨rfl, rfl, rfl, rfl, rfl, rfl, rfl, fun _ _ => rfl⟩

end Config

/-- The local that an instruction sets. -/
def Opcode.local? (op : Opcode) (a : Nat) : Option Nat :=
  match op with
  | .setLocal => some a
  | _ => none

/-- What executing an instruction comes to, as far as calls are concerned. -/
inductive Effect.Shape (s : Option Nat) (c : Config) : Effect → Prop
  | next {c' : Config} : c.Stays s c' → Shape s c (.next c')
  | push {c' : Config} (v : Value) : c.Stays s c' → Shape s c (c'.push v)
  | stop {stop : Stop} {c' : Config} : c.Stays s c' → Shape s c (.stop stop c')
  | stuck : Shape s c .stuck
  | enter {id : Nat} {proto : Prototype} {free args temps : List Value} :
    .closure id proto free ∈ c.current.temps →
      Shape s c (c.enter (.closure id proto free) proto args temps)
  | leave (v : Value) : Shape s c (c.leave v)

namespace Config

variable {s : Option Nat}

theorem Stays.pushResult {c c' : Config} (h : c.Stays s c') (r : Except Stop Value) :
    (c'.pushResult r).Shape s c := by
  cases r with
  | ok v => exact .push v h
  | error s => exact .stop h

theorem Stays.pushFound {c c' : Config} (h : c.Stays s c') (o : Option Value) :
    (c'.pushFound o).Shape s c := by
  cases o with
  | none => exact .stuck
  | some v => exact .push v h

theorem Stays.pushNew {c c' : Config} (h : c.Stays s c') (make : Nat → Value) :
    (c'.pushNew make).Shape s c :=
  .push _ ⟨h.constants, h.limits, h.tracing, h.size, h.callers, h.self, h.code, h.locals⟩

private theorem binary_shape (c : Config) (f : Value → Value → Except Stop Value) :
    (c.binary f).Shape s c := by
  unfold binary
  split
  · exact (c.stays_withTemps _).pushResult _
  · exact .stuck

private theorem call_shape (c : Config) (n : Nat) : (c.call n).Shape s c := by
  unfold call
  dsimp only
  split
  · exact .stuck
  · rename_i callee temps hd
    have hmem : callee ∈ c.current.temps :=
      List.mem_of_mem_drop (hd ▸ List.mem_cons_self)
    split
    · exact .enter hmem
    · unfold callBuiltin
      dsimp only
      split
      · exact .stop ⟨rfl, rfl, rfl, rfl, rfl, rfl, rfl, fun _ _ => rfl⟩
      · exact .push _ ⟨rfl, rfl, rfl, rfl, rfl, rfl, rfl, fun _ _ => rfl⟩
    · exact .stop .rfl

theorem execute_shape (c : Config) (op : Opcode) (a b : Nat) :
    (c.execute op a b).Shape (op.local? a) c := by
  cases op with
  | constant | getGlobal | getLocal | getBuiltin => exact Stays.rfl.pushFound _
  | pushTrue | pushFalse | pushNull => exact .push _ .rfl
  | add | sub | mul | div | equal | notEqual | greaterThan | index => exact c.binary_shape _
  | jump | jumpNotTruthy => exact .stuck
  | call => exact c.call_shape a
  | returnNull => exact .leave _
  | pop =>
    simp only [execute]
    split
    · exact .next ⟨rfl, rfl, rfl, rfl, rfl, rfl, rfl, fun _ _ => rfl⟩
    · exact .stuck
  | bang =>
    simp only [execute]
    split
    · exact .push _ (c.stays_withTemps _)
    · exact .stuck
  | minus =>
    simp only [execute]
    split
    · exact (c.stays_withTemps _).pushResult _
    · exact .stuck
  | setGlobal =>
    simp only [execute]
    split
    · split
      · exact .next ⟨rfl, rfl, rfl, Slots.size_set .., rfl, rfl, rfl, fun _ _ => rfl⟩
      · exact .stuck
    · exact .stuck
  | setLocal =>
    simp only [execute]
    split
    · split
      · exact .next ⟨rfl, rfl, rfl, rfl, rfl, rfl, rfl, fun i hi =>
          List.getElem?_set_ne fun ha => hi (congrArg some ha)⟩
      · exact .stuck
    · exact .stuck
  | getFree =>
    simp only [execute]
    split
    · exact Stays.rfl.pushFound _
    · exact .stuck
  | currentClosure =>
    simp only [execute]
    split
    · exact .push _ .rfl
    · exact .stuck
  | returnValue =>
    simp only [execute]
    split
    · exact .leave _
    · exact .stuck
  | array =>
    simp only [execute]
    split
    · exact (c.stays_withTemps _).pushNew _
    · exact .stuck
  | hash =>
    simp only [execute, makeHash]
    split
    · split
      · exact .stop .rfl
      · exact (c.stays_withTemps _).pushNew _
    · exact .stuck
  | closure =>
    simp only [execute, makeClosure]
    split
    · split
      · exact (c.stays_withTemps _).pushNew _
      · exact .stuck
    · exact .stuck

/-- One configuration goes over to another, as far as calls are concerned. -/
inductive Moves (s : Option Nat) (c c' : Config) : Prop
  | stays : c.Stays s c' → Moves s c c'
  | enters {id : Nat} {proto : Prototype} {free temps : List Value} :
    .closure id proto free ∈ c.current.temps → proto.body? = some c'.current.code →
      c'.current.self = .closure id proto free →
      c'.callers = c.current.withTemps temps :: c.callers →
      (c.callers.length + 1 : Int) < c.limits.maxFrames →
      (∀ i : Nat, proto.numParams ≤ i → i < proto.numLocals →
        c'.current.locals[i]? = some .null) → Moves s c c'
  | leaves {caller : Activation} : c.callers = caller :: c'.callers →
    c'.current.self = caller.self → c'.current.code = caller.code →
      c'.current.locals = caller.locals → Moves s c c'

end Config

namespace Config

variable {c c' : Config}

theorem push_eq_next {v : Value} (h : c.push v = .next c') :
    c' = c.withTemps (v :: c.current.temps) := by
  unfold push at h
  split at h
  · cases h
  · cases h
    rfl

theorem leave_eq_next {v : Value} (h : c.leave v = .next c') :
    ∃ caller callers callee temps, c.callers = caller :: callers ∧
      caller.temps = callee :: temps ∧
      c' = { c with current := caller.withTemps (v :: temps), callers } := by
  unfold leave at h
  split at h
  · cases h
  · rename_i caller callers hc
    split at h
    · cases h
    · rename_i callee temps ht
      exact ⟨caller, callers, callee, temps, hc, ht, push_eq_next h⟩

theorem enter_eq_next {callee : Value} {proto : Prototype} {args temps : List Value}
    (h : c.enter callee proto args temps = .next c') :
    (c.callers.length + 1 : Int) < c.limits.maxFrames ∧ (args.length : Int) = proto.numParams ∧
      ∃ body, proto.body? = some body ∧
      c' = { c with
        current :=
          { self := callee, code := body
            locals := args ++ List.replicate (proto.numLocals.toNat - args.length) .null }
        callers := c.current.withTemps (callee :: temps) :: c.callers } := by
  unfold enter at h
  dsimp only at h
  split at h
  · cases h
  rename_i hargs
  split at h
  · cases h
  split at h
  · cases h
  rename_i hframes
  split at h
  · cases h
  rename_i body hbody
  split at h
  · cases h
    exact ⟨Int.not_le.mp hframes, not_not.mp hargs, body, hbody, rfl⟩
  · cases h

end Config

namespace Effect

variable {s : Option Nat} {c c' : Config} {e : Effect}

theorem Shape.moves (h : e.Shape s c) (he : e = .next c') : c.Moves s c' := by
  cases h with
  | next hs =>
    cases he
    exact .stays hs
  | push v hs =>
    rw [Config.push_eq_next he]
    exact .stays
      ⟨hs.constants, hs.limits, hs.tracing, hs.size, hs.callers, hs.self, hs.code, hs.locals⟩
  | stop | stuck => cases he
  | enter hmem =>
    obtain ⟨hframes, hargs, body, hbody, rfl⟩ := Config.enter_eq_next he
    refine .enters hmem hbody rfl rfl hframes fun i hi hlt => ?_
    dsimp only
    rw [List.getElem?_append_right (by omega), List.getElem?_replicate, if_pos (by omega)]
  | leave v =>
    obtain ⟨caller, callers, callee, temps, hc, -, rfl⟩ := Config.leave_eq_next he
    exact .leaves hc rfl rfl rfl

/-- What no instruction changes. -/
def Keeps (c : Config) : Effect → Prop
  | .next c' | .stop _ c' =>
    c'.constants = c.constants ∧ c'.limits = c.limits ∧ c'.tracing = c.tracing ∧
      c'.globals.size = c.globals.size
  | .stuck => True

private theorem push_keeps (hs : c.Stays s c') (v : Value) : (c'.push v).Keeps c := by
  unfold Config.push
  split <;> exact ⟨hs.constants, hs.limits, hs.tracing, hs.size⟩

theorem Shape.keeps (h : e.Shape s c) : e.Keeps c := by
  cases h with
  | next hs | stop hs => exact ⟨hs.constants, hs.limits, hs.tracing, hs.size⟩
  | push v hs => exact push_keeps hs v
  | stuck => trivial
  | enter hmem =>
    unfold Config.enter
    dsimp only
    split
    · exact ⟨rfl, rfl, rfl, rfl⟩
    split
    · exact ⟨rfl, rfl, rfl, rfl⟩
    split
    · exact ⟨rfl, rfl, rfl, rfl⟩
    split
    · trivial
    split
    · exact ⟨rfl, rfl, rfl, rfl⟩
    · trivial
  | leave v =>
    unfold Config.leave
    split
    · trivial
    split
    · trivial
    · unfold Config.push
      split <;> exact ⟨rfl, rfl, rfl, rfl⟩

end Effect

end ClosureVM
