import ClosureVM.Proofs.Code.Checking
import ClosureVM.Proofs.Machine.Runs

/-! What a run does not depend on: wider limits, further constants, code that comes later, earlier
output, and the value popped before. -/
namespace ClosureVM

/-- Room for at least as much on the stack, and for at least as many calls. -/
structure Limits.Allows (l l' : Limits) : Prop where
  stackSize : l.stackSize ≤ l'.stackSize
  maxFrames : l.maxFrames ≤ l'.maxFrames

theorem Limits.Allows.refl (l : Limits) : l.Allows l := ⟨Int.le_refl _, Int.le_refl _⟩

/-- The stack or the calls outgrew their limits. -/
def Stop.IsOverflow (maxFrames : Int) (s : Stop) : Prop :=
  s = .fault .stackOverflow ∨ s = .fault (.frameOverflow maxFrames)

/-- Other circumstances for a run: its limits and constants, the code that the program goes on
with, what was written before, and the value popped last unless it is left as it is. -/
structure Setting where
  limits : Limits
  constants : Array Value
  more : List Piece := []
  written : List String := []
  lastPopped : Option Value := none

/-- The program itself, which has no callers, goes on with more code. -/
def Activation.extend (a : Activation) (more : List Piece) (callers : List Activation) :
    Activation :=
  { a with code := a.code ++ if callers.isEmpty then more else [] }

def extendLast (more : List Piece) : List Activation → List Activation
  | [] => []
  | a :: callers => a.extend more callers :: extendLast more callers

/-- The same configuration in another setting. -/
def Config.recast (w : Setting) (c : Config) : Config :=
  { c with
    constants := w.constants
    limits := w.limits
    lastPopped := w.lastPopped.getD c.lastPopped
    current := c.current.extend w.more c.callers
    callers := extendLast w.more c.callers
    written := w.written ++ c.written }

def Effect.recast (w : Setting) : Effect → Effect
  | .next c => .next (c.recast w)
  | .stop s c => .stop s (c.recast w)
  | .stuck => .stuck

/-- The second effect is the first in another setting, unless the first is stuck, or an overflow
of other limits. -/
def Effect.Agrees (w : Setting) (e e' : Effect) : Prop :=
  e' = e.recast w ∨ e = .stuck ∨
    ∃ s c, e = .stop s c ∧ s.IsOverflow c.limits.maxFrames ∧ c.limits ≠ w.limits

/-- The setting offers at least what the configuration has. -/
structure Setting.Widens (w : Setting) (c : Config) : Prop where
  limits : c.limits.Allows w.limits
  constants : Extends c.constants w.constants

theorem Setting.Widens.withTemps {w : Setting} {c : Config} (h : w.Widens c)
    (temps : List Value) : w.Widens (c.withTemps temps) := ⟨h.limits, h.constants⟩

private theorem Activation.extend_cons (a : Activation) (more : List Piece) (caller : Activation)
    (callers : List Activation) : a.extend more (caller :: callers) = a := by
  simp [extend]

theorem length_extendLast (more : List Piece) (callers : List Activation) :
    (extendLast more callers).length = callers.length := by
  induction callers with
  | nil => rfl
  | cons a callers ih => rw [extendLast, List.length_cons, List.length_cons, ih]

private theorem stackOf_extendLast (more : List Piece) (callers : List Activation) :
    stackOf (extendLast more callers) = stackOf callers := by
  induction callers with
  | nil => rfl
  | cons a callers ih =>
    rw [extendLast, stackOf, stackOf, ih]
    rfl

/-- A check agrees that guards effects which agree, if it fails with an overflow, and no sooner in
the other setting. -/
theorem Effect.Agrees.check {w : Setting} {c : Config} {s : Stop} {e e' : Effect}
    {P : Limits → Prop} [DecidablePred P] (hs : s.IsOverflow c.limits.maxFrames)
    (hP : P w.limits → P c.limits) {s' : Stop} (hs' : c.limits = w.limits → s' = s)
    (h : e.Agrees w e') :
    (if P c.limits then .stop s c else e : Effect).Agrees w
      (if P w.limits then .stop s' (c.recast w) else e') := by
  by_cases ho : P c.limits
  · rw [if_pos ho]
    by_cases hl : c.limits = w.limits
    · rw [if_pos (hl ▸ ho), hs' hl]
      exact .inl rfl
    · exact .inr (.inr ⟨s, c, rfl, hs, hl⟩)
  · rw [if_neg ho, if_neg (mt hP ho)]
    exact h

namespace Config

variable {c : Config} {w : Setting}

theorem temps_recast : (c.recast w).current.temps = c.current.temps := by
  rw [recast, Activation.extend]

theorem locals_recast : (c.recast w).current.locals = c.current.locals := by
  rw [recast, Activation.extend]

theorem limits_recast : (c.recast w).limits = w.limits := rfl

theorem height_recast : (c.recast w).height = c.height := by
  have hs : stackOf ((c.recast w).current :: (c.recast w).callers) =
    stackOf (c.current :: c.callers) := stackOf_extendLast w.more (c.current :: c.callers)
  exact congrArg List.length hs

theorem recast_withTemps (temps : List Value) :
    (c.recast w).withTemps temps = (c.withTemps temps).recast w := rfl

theorem recast_withCode (code : List Piece) :
    (c.withCode code).recast w =
      (c.recast w).withCode (code ++ if c.callers.isEmpty then w.more else []) := rfl

theorem push_agrees (h : w.Widens c) (v : Value) :
    (c.push v).Agrees w ((c.recast w).push v) := by
  unfold push
  rw [height_recast, limits_recast, temps_recast, recast_withTemps]
  exact .check (P := fun l => l.stackSize ≤ c.height) (.inl rfl)
    (Int.le_trans h.limits.stackSize) (fun _ => rfl) (.inl rfl)

theorem pushResult_agrees (h : w.Widens c) (r : Except Stop Value) :
    (c.pushResult r).Agrees w ((c.recast w).pushResult r) := by
  cases r with
  | ok v => exact push_agrees h v
  | error s => exact .inl rfl

theorem pushNew_agrees (h : w.Widens c) (make : Nat → Value) :
    (c.pushNew make).Agrees w ((c.recast w).pushNew make) :=
  push_agrees (c := { c with fresh := c.fresh + 1 }) ⟨h.limits, h.constants⟩ _

/-- Looking up more than is found in the configuration is no matter. -/
theorem pushFound_agrees (h : w.Widens c) {o o' : Option Value} (ho : ∀ v, o = some v → o' = o) :
    (c.pushFound o).Agrees w ((c.recast w).pushFound o') := by
  cases o with
  | none => exact .inr (.inl rfl)
  | some v =>
    rw [ho v rfl]
    exact push_agrees h v

private theorem binary_agrees (h : w.Widens c) (f : Value → Value → Except Stop Value) :
    (c.binary f).Agrees w ((c.recast w).binary f) := by
  unfold binary
  rw [temps_recast]
  split
  · rw [recast_withTemps]
    exact pushResult_agrees (h.withTemps _) _
  · exact .inl rfl

private theorem enter_agrees (h : w.Widens c) (callee : Value) (proto : Prototype)
    (args temps : List Value) : (c.enter callee proto args temps).Agrees w
      ((c.recast w).enter callee proto args temps) := by
  have hcallers : (c.recast w).callers.length = c.callers.length := length_extendLast ..
  unfold enter
  dsimp only
  rw [height_recast, limits_recast, hcallers]
  by_cases ha : (args.length : Int) = proto.numParams
  · rw [if_neg (not_not_intro ha), if_neg (not_not_intro ha)]
    refine .check (P := fun l => l.stackSize < c.height - args.length + proto.numLocals)
      (.inl rfl) (Int.lt_of_le_of_lt h.limits.stackSize) (fun _ => rfl) ?_
    refine .check (P := fun l => l.maxFrames ≤ c.callers.length + 1)
      (.inr rfl) (Int.le_trans h.limits.maxFrames) (fun hl => by rw [hl]) ?_
    split
    · exact .inl rfl
    · split
      · refine .inl ?_
        simp only [Effect.recast, recast, Activation.extend_cons]
        rfl
      · exact .inl rfl
  · rw [if_pos ha, if_pos ha]
    exact .inl rfl

private theorem callBuiltin_agrees (h : w.Widens c) (b : Builtin) (args temps : List Value) :
    (c.callBuiltin b args temps).Agrees w
      ((c.recast w).callBuiltin b args temps) := by
  have hf : (c.recast w).fresh = c.fresh := rfl
  unfold callBuiltin
  dsimp only
  rw [hf]
  split
  · exact .inl rfl
  · rename_i reply _
    let c' := withTemps
      { c with fresh := c.fresh + 1, written := c.written ++ reply.written } temps
    have hr : withTemps { c.recast w with
        fresh := c.fresh + 1, written := (c.recast w).written ++ reply.written } temps =
      c'.recast w := by
      simp only [c', recast, withTemps, List.append_assoc]
      rfl
    rw [hr]
    exact push_agrees (c := c') ⟨h.limits, h.constants⟩ _

private theorem call_agrees (h : w.Widens c) (n : Nat) :
    (c.call n).Agrees w ((c.recast w).call n) := by
  unfold call
  dsimp only
  rw [temps_recast]
  split
  · exact .inl rfl
  · split
    · exact enter_agrees h _ _ _ _
    · exact callBuiltin_agrees h _ _ _
    · exact .inl rfl

theorem leave_agrees (h : w.Widens c) (v : Value) :
    (c.leave v).Agrees w ((c.recast w).leave v) := by
  unfold leave
  cases hc : c.callers with
  | nil => exact .inr (.inl rfl)
  | cons caller callers =>
    have hc' : (c.recast w).callers = caller.extend w.more callers :: extendLast w.more callers := by
      rw [recast, hc, extendLast]
    rw [hc']
    have ht : (caller.extend w.more callers).temps = caller.temps := by rw [Activation.extend]
    dsimp only
    rw [ht]
    split
    · exact .inl rfl
    · rename_i temps _
      let c' := { c with current := caller.withTemps temps, callers }
      exact push_agrees (c := c') ⟨h.limits, h.constants⟩ v

/-- Every instruction agrees, but for a `pop` by the program itself. -/
theorem execute_agrees (h : w.Widens c) {op : Opcode} (hpop : op = .pop → c.callers ≠ [])
    (a b : Nat) :
    (c.execute op a b).Agrees w ((c.recast w).execute op a b) := by
  have hself : (c.recast w).current.self = c.current.self := by rw [recast, Activation.extend]
  cases op with
  | constant =>
    exact pushFound_agrees h fun v hv => hv ▸ h.constants.getElem? hv
  | getGlobal | getBuiltin => exact pushFound_agrees h fun _ _ => rfl
  | getLocal => exact pushFound_agrees h fun _ _ => by rw [locals_recast]
  | pushTrue | pushFalse | pushNull => exact push_agrees h _
  | add | sub | mul | div | equal | notEqual | greaterThan | index => exact binary_agrees h _
  | jump | jumpNotTruthy => exact .inl rfl
  | call => exact call_agrees h a
  | returnNull => exact leave_agrees h _
  | pop =>
    have hc := hpop rfl
    obtain ⟨caller, callers, hc⟩ := List.exists_cons_of_ne_nil hc
    simp only [execute, temps_recast]
    split
    · refine .inl ?_
      simp only [Effect.recast, recast, withTemps, hc, extendLast,
        List.isEmpty_cons, Bool.false_eq_true, if_false]
      rfl
    · exact .inl rfl
  | bang =>
    simp only [execute, temps_recast]
    split
    · rw [recast_withTemps]
      exact push_agrees (h.withTemps _) _
    · exact .inl rfl
  | minus =>
    simp only [execute, temps_recast]
    split
    · rw [recast_withTemps]
      exact pushResult_agrees (h.withTemps _) _
    · exact .inl rfl
  | setGlobal =>
    simp only [execute, temps_recast]
    split
    · by_cases ha : a < c.globals.size
      · have ha' : a < (c.recast w).globals.size := ha
        rw [if_pos ha, if_pos ha']
        exact .inl rfl
      · rw [if_neg ha]
        exact .inr (.inl rfl)
    · exact .inl rfl
  | setLocal =>
    simp only [execute, temps_recast, locals_recast]
    split
    · split <;> exact .inl rfl
    · exact .inl rfl
  | getFree =>
    simp only [execute, hself]
    split
    · exact pushFound_agrees h fun _ _ => rfl
    · exact .inl rfl
  | currentClosure =>
    simp only [execute, hself]
    split
    · exact push_agrees h _
    · exact .inl rfl
  | returnValue =>
    simp only [execute, temps_recast]
    split
    · exact leave_agrees h _
    · exact .inl rfl
  | array =>
    simp only [execute, temps_recast]
    split
    · rw [recast_withTemps]
      exact pushNew_agrees (h.withTemps _) _
    · exact .inl rfl
  | hash =>
    simp only [execute, makeHash, temps_recast]
    split
    · split
      · exact .inl rfl
      · rw [recast_withTemps]
        exact pushNew_agrees (h.withTemps _) _
    · exact .inl rfl
  | closure =>
    have hconst : (c.recast w).constants = w.constants := rfl
    simp only [execute, makeClosure, temps_recast]
    rw [hconst]
    cases hv : c.constants[a]? with
    | none => exact .inr (.inl rfl)
    | some v =>
      rw [h.constants.getElem? hv]
      split
      · split
        · rw [recast_withTemps]
          exact pushNew_agrees (h.withTemps _) _
        · exact .inl rfl
      · exact .inl rfl

/-- Behind a `pop` by the program itself, it does not matter what was popped before. -/
theorem execute_pop_agrees (hc : c.callers.isEmpty = true) (a b : Nat) :
    (c.execute .pop a b).Agrees { w with lastPopped := none }
      ((c.recast w).execute .pop a b) := by
  obtain hc : c.callers = [] := List.isEmpty_iff.mp hc
  simp only [execute, temps_recast]
  split
  · refine .inl ?_
    simp only [Effect.recast, recast, withTemps, hc, extendLast, List.isEmpty_nil, if_true]
    rfl
  · exact .inl rfl

/-- The step to come pops a value of the program itself. -/
def pops (c : Config) : Bool :=
  match c.current.code with
  | .ins i :: _ => c.callers.isEmpty && i.op == .pop
  | _ => false

theorem pops_of_ins {i : Instruction} {rest : List Piece} (h : c.current.code = .ins i :: rest) :
    c.pops = (c.callers.isEmpty && i.op == .pop) := by
  rw [pops, h]

end Config

/-- Once the program itself has popped a value, what was popped before is forgotten. -/
def Setting.next (w : Setting) (c : Config) : Setting :=
  { w with lastPopped := if c.pops then none else w.lastPopped }

theorem Setting.next_of_lastPopped {w : Setting} (h : w.lastPopped = none) (c : Config) :
    w.next c = w := by
  rw [Setting.next, h, ite_self, ← h]

theorem Setting.next_of_not_pops {c : Config} (h : c.pops = false) (w : Setting) :
    w.next c = w := by
  rw [Setting.next, h, if_neg Bool.false_ne_true]

namespace Config

variable {c c' : Config} {w : Setting} {r : Except Stop Value}

theorem step_agrees (h : w.Widens c) : c.step.Agrees (w.next c) (c.recast w).step := by
  have hcode : (c.recast w).current.code =
    c.current.code ++ if c.callers.isEmpty then w.more else [] := rfl
  unfold step
  rw [hcode]
  cases hc : c.current.code with
  | nil => exact .inr (.inl rfl)
  | cons p rest =>
    cases p with
    | ins i =>
      have hi := pops_of_ins hc
      cases hp : c.pops with
      | true =>
        have hw : w.next c = { w with lastPopped := none } := by rw [Setting.next, hp, if_pos rfl]
        obtain ⟨hcallers, hop⟩ : c.callers.isEmpty = true ∧ (i.op == .pop) = true := by
          rwa [hp, eq_comm, Bool.and_eq_true] at hi
        dsimp only [List.cons_append]
        rw [hw, eq_of_beq hop]
        exact execute_pop_agrees (c := c.withCode rest) hcallers _ _
      | false =>
        have hpop : i.op = .pop → c.callers ≠ [] := by
          intro hop hcallers
          rw [hp, hop, hcallers] at hi
          cases hi
        rw [Setting.next_of_not_pops hp]
        exact execute_agrees (c := c.withCode rest) ⟨h.limits, h.constants⟩ hpop _ _
    | branch t e =>
      have hp : c.pops = false := by rw [pops, hc]
      rw [Setting.next_of_not_pops hp]
      dsimp only [List.cons_append]
      rw [temps_recast]
      split
      · rename_i v temps _
        refine .inl ?_
        cases v.truthy with
        | true =>
          simp only [if_true, Effect.recast, recast_withTemps, recast_withCode, List.append_assoc,
            List.cons_append]
          rfl
        | false =>
          simp only [Bool.false_eq_true, if_false, Effect.recast, recast_withTemps,
            recast_withCode, List.append_assoc]
          rfl
      · exact .inl rfl
    | skip =>
      have hp : c.pops = false := by rw [pops, hc]
      rw [Setting.next_of_not_pops hp]
      exact .inl rfl

theorem Next.recast (hn : c.Next c') (h : w.Widens c) :
    (c.recast w).Next (c'.recast (w.next c)) := by
  obtain hs | hs | ⟨s, d, hs, -⟩ := step_agrees h
  · rw [Next, hs, hn]
    rfl
  · rw [hn] at hs
    cases hs
  · rw [hn] at hs
    cases hs

theorem Next.widens (hn : c.Next c') (h : w.Widens c) : (w.next c).Widens c' := by
  obtain ⟨hk, hl, -⟩ := hn.keeps
  exact ⟨hl ▸ h.limits, hk ▸ h.constants⟩

theorem steps_recast (hs : Relation.ReflTransGen Next c c') (h : w.Widens c)
    (hw : w.lastPopped = none) : Relation.ReflTransGen Next (c.recast w) (c'.recast w) := by
  induction hs using Relation.ReflTransGen.head_induction_on with
  | refl => exact .refl
  | head hn _ ih =>
    have hn' := hn.recast h
    have h' := hn.widens h
    rw [Setting.next_of_lastPopped hw] at hn' h'
    exact .head hn' (ih h')

/-- Some step of the run pops a value of the program itself. -/
def Pops (c : Config) : Prop :=
  ∃ d d', Relation.ReflTransGen Next c d ∧ d.Next d' ∧ d.pops = true

theorem Next.pops_iff (hn : c.Next c') : c.Pops ↔ c.pops = true ∨ c'.Pops := by
  constructor
  · rintro ⟨d, d', hd, hn', hp⟩
    obtain rfl | ⟨c₁, hn₁, hd⟩ := Relation.ReflTransGen.cases_head hd
    · exact .inl hp
    · rw [Next, hn] at hn₁
      cases hn₁
      exact .inr ⟨d, d', hd, hn', hp⟩
  · rintro (hp | ⟨d, d', hd, hn', hp⟩)
    · exact ⟨c, c', .refl, hn, hp⟩
    · exact ⟨d, d', .head hn hd, hn', hp⟩

private theorem pops_eq_false {s : Stop} (hs : c.step = .stop s c') : c.pops = false := by
  rw [← Bool.not_eq_true]
  intro hp
  unfold pops at hp
  split at hp
  · rename_i i rest hc
    rw [Bool.and_eq_true] at hp
    rw [step, hc] at hs
    dsimp only at hs
    rw [eq_of_beq hp.2] at hs
    simp only [execute] at hs
    split at hs <;> cases hs
  · cases hp

private theorem not_pops (hn : ∀ c', ¬ c.Next c') : ¬ c.Pops := by
  rintro ⟨d, d', hd, hn', -⟩
  obtain rfl | ⟨c₁, hn₁, -⟩ := Relation.ReflTransGen.cases_head hd
  · exact hn d' hn'
  · exact hn c₁ hn₁

end Config

open Classical in
/-- What is left of the setting at the end of a run. -/
noncomputable def Setting.after (w : Setting) (c : Config) : Setting :=
  { w with lastPopped := if c.Pops then none else w.lastPopped }

private theorem Setting.after_next {w : Setting} {c c' : Config} (hn : c.Next c') :
    (w.next c).after c' = w.after c := by
  have hp := hn.pops_iff
  unfold Setting.after Setting.next
  by_cases hc : c.pops = true
  · rw [if_pos (hp.mpr (.inl hc)), if_pos hc, ite_self]
  · by_cases hc' : c'.Pops
    · rw [if_pos (hp.mpr (.inr hc')), if_pos hc']
    · rw [if_neg hc, if_neg hc', if_neg (by tauto)]

theorem Setting.after_of_stop {w : Setting} {c : Config} (hn : ∀ c', ¬ c.Next c') :
    w.after c = w := by
  rw [Setting.after, if_neg (Config.not_pops hn)]

namespace Config

variable {c c' : Config} {w : Setting} {r : Except Stop Value}

/-- A run ends the same way in every setting with the same limits, except that a program that
pops nothing leaves the value popped before. -/
theorem Ends.recast (he : c.Ends r c') (h : w.Widens c) (hl : c.limits = w.limits)
    (hm : w.more = []) :
    (c.recast w).Ends (r.map fun _ => (c'.recast (w.after c)).lastPopped)
      (c'.recast (w.after c)) := by
  induction he generalizing w with
  | @done c hc =>
    have hno (c' : Config) : ¬ c.Next c' := fun hn => hn.code_ne_nil hc
    have hc' : (c.recast w).current.code = [] := by
      rw [Config.recast, Activation.extend, hc, hm, ite_self, List.nil_append]
    rw [Setting.after_of_stop hno]
    exact .done hc'
  | @stop c c' s hs =>
    have hno (c' : Config) : ¬ c.Next c' := fun hn => by
      rw [Next, hs] at hn
      cases hn
    have ha := step_agrees h
    rw [Setting.next_of_not_pops (pops_eq_false hs)] at ha
    rw [Setting.after_of_stop hno]
    refine .stop ?_
    obtain ha | ha | ⟨s', d, ha, -, hne⟩ := ha
    · rw [ha, hs]
      rfl
    · rw [hs] at ha
      cases ha
    · rw [hs] at ha
      cases ha
      have hk := c.step_keeps
      rw [hs] at hk
      exact absurd (hk.2.1.trans hl) hne
  | @next c c₁ c' r hn _ ih =>
    rw [← Setting.after_next hn]
    exact .next (hn.recast h) (ih (hn.widens h) (hn.keeps.2.1.trans hl) hm)

/-- A run that does not overflow leads to nothing new within wider limits. -/
theorem Ends.exists_of_recast (he : c.Ends r c') (h : w.Widens c) (hm : w.more = [])
    (hw : w.lastPopped = none) (hr : ∀ s, r = .error s → ¬ s.IsOverflow c.limits.maxFrames)
    {d : Config} (hd : Relation.ReflTransGen Next (c.recast w) d) :
    ∃ e, Relation.ReflTransGen Next c e ∧ d = e.recast w := by
  induction he with
  | @done c hc =>
    obtain rfl | ⟨d₁, hn, -⟩ := Relation.ReflTransGen.cases_head hd
    · exact ⟨c, .refl, rfl⟩
    · refine absurd ?_ hn.code_ne_nil
      rw [Config.recast, Activation.extend, hc, hm, ite_self, List.nil_append]
  | @stop c c' s hs =>
    obtain rfl | ⟨d₁, hn, -⟩ := Relation.ReflTransGen.cases_head hd
    · exact ⟨c, .refl, rfl⟩
    · rw [Next] at hn
      obtain ha | ha | ⟨s', d', ha, ho, -⟩ := step_agrees h
      · rw [ha, hs] at hn
        cases hn
      · rw [hs] at ha
        cases ha
      · rw [hs] at ha
        cases ha
        have hk := c.step_keeps
        rw [hs] at hk
        exact absurd (hk.2.1 ▸ ho) (hr s rfl)
  | @next c c₁ c' r hn _ ih =>
    obtain rfl | ⟨d₁, hn₁, hd⟩ := Relation.ReflTransGen.cases_head hd
    · exact ⟨c, .refl, rfl⟩
    · have hn' := hn.recast h
      have h' := hn.widens h
      rw [Setting.next_of_lastPopped hw] at hn' h'
      rw [Next, hn'] at hn₁
      cases hn₁
      obtain ⟨e, hs, rfl⟩ := ih h' (hn.keeps.2.1 ▸ hr) hd
      exact ⟨e, .head hn hs, rfl⟩

/-- A run that ends has calls of bounded depth. -/
theorem Ends.depth_le (he : c.Ends r c') :
    ∃ depth, ∀ d, Relation.ReflTransGen Next c d → d.callers.length ≤ depth := by
  have hfirst {c : Config} (depth : Nat)
      (hnext : ∀ c₁, c.Next c₁ → ∀ d, Relation.ReflTransGen Next c₁ d → d.callers.length ≤ depth) :
      ∀ d, Relation.ReflTransGen Next c d → d.callers.length ≤ max c.callers.length depth := by
    intro d hd
    obtain rfl | ⟨c₁, hn, hd⟩ := Relation.ReflTransGen.cases_head hd
    · exact Nat.le_max_left ..
    · exact Nat.le_trans (hnext c₁ hn d hd) (Nat.le_max_right ..)
  induction he with
  | done hc => exact ⟨_, hfirst 0 fun c₁ hn => absurd hc hn.code_ne_nil⟩
  | stop hs =>
    refine ⟨_, hfirst 0 fun c₁ hn => ?_⟩
    rw [Next, hs] at hn
    cases hn
  | next hn _ ih =>
    obtain ⟨depth, hd⟩ := ih
    refine ⟨_, hfirst depth fun c₁ hn' => ?_⟩
    rw [Next, hn] at hn'
    cases hn'
    exact hd

end Config

end ClosureVM
