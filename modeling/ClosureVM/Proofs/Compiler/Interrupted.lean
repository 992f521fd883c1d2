import ClosureVM.Proofs.Compiler.Compositional
import ClosureVM.Proofs.Symbol.Scopes

/-! What every compilation keeps, also one that breaks off: literals and functions are added to the
constants and nothing else, and the names of the program stand for globals and builtins. -/
namespace ClosureVM

/-- A table of the program itself. -/
def Table.Shared (t : Table) : Prop := ∀ s ∈ t.symbols, s.IsShared

/-- A compilation that has gone on. -/
structure Compiler.Continues (c c' : Compiler) : Prop where
  constants : Extends c.constants c'.constants
  added : ∀ v ∈ c'.constants, v ∈ c.constants ∨ v.IsLiteral ∨ ∃ proto, v = .function proto
  global : c.env.global.Shared → c'.env.global.Shared
  numbered : c.env.global.Numbered → c'.env.global.Numbered
  numDefinitions : c.env.global.numDefinitions ≤ c'.env.global.numDefinitions

namespace Compiler

variable {c c' c'' : Compiler}

theorem Continues.trans (h : c.Continues c') (h' : c'.Continues c'') : c.Continues c'' :=
  ⟨h.constants.trans h'.constants, fun v hv => (h'.added v hv).elim (h.added v) .inr,
    fun hg => h'.global (h.global hg), fun hn => h'.numbered (h.numbered hn),
    Nat.le_trans h.numDefinitions h'.numDefinitions⟩

theorem Continues.of_eq (hc : c'.constants = c.constants) (hg : c'.env.global = c.env.global) :
    c.Continues c' :=
  ⟨hc ▸ .refl _, fun v hv => .inl (hc ▸ hv), fun h => hg ▸ h, fun h => hg ▸ h,
    Nat.le_of_eq (by rw [hg])⟩

theorem Continues.push {v : Value} (hv : v.IsLiteral ∨ ∃ proto, v = .function proto) :
    c.Continues { c with constants := c.constants.push v } where
  constants := .push ..
  added w hw := by
    obtain hw | rfl := Array.mem_push.mp hw
    · exact .inl hw
    · exact .inr hv
  global := id
  numbered := id
  numDefinitions := Nat.le_refl _

end Compiler

/-- A computation that only goes on from where it starts, whether it succeeds or not. -/
structure Keeps {α : Type} (x : CompileM α) : Prop where
  continues : ∀ c, match x c with
    | .ok _ c' | .error _ c' => c.Continues c'

namespace Keeps

variable {α β : Type}

theorem bind {x : CompileM α} {f : α → CompileM β} (hx : Keeps x) (hf : ∀ a, Keeps (f a)) :
    Keeps (x >>= f) := by
  constructor
  intro c
  have hc := hx.continues c
  rw [EStateM.bind_apply]
  cases h : x c with
  | error e c' =>
    rw [h] at hc
    exact hc
  | ok a c' =>
    rw [h] at hc
    have hc' := (hf a).continues c'
    dsimp only
    cases h' : f a c' with
    | ok b c'' | error e c'' =>
      rw [h'] at hc'
      exact hc.trans hc'

theorem stepwise : Stepwise @Keeps where
  writes _ _ := ⟨fun _ => .of_eq rfl rfl⟩
  throw _ := ⟨fun _ => .of_eq rfl rfl⟩
  bind := bind

theorem define (name : String) : Keeps (CompileM.define name) := by
  constructor
  intro c
  change c.Continues { c with env := (c.env.define name).2 }
  unfold Environment.define
  split
  · refine ⟨.refl _, fun _ => .inl, fun hg s hs => ?_, fun hn => hn.define name, Nat.le_succ _⟩
    obtain rfl | hs := Table.mem_insert hs
    · exact Int.natCast_nonneg _
    · exact hg s hs
  · exact .of_eq rfl rfl

theorem resolve (name : String) (line : Line) : Keeps (CompileM.resolve name line) := by
  constructor
  intro c
  unfold CompileM.resolve
  rw [EStateM.bind_ok (EStateM.get_apply c)]
  cases h : c.env.resolve? name with
  | none => exact .of_eq rfl rfl
  | some found =>
    obtain ⟨⟨s, nested⟩, -, ⟨⟩⟩ := Option.map_eq_some_iff.mp h
    exact .of_eq rfl rfl

theorem leaveScope : Keeps CompileM.leaveScope := by
  constructor
  intro c
  unfold CompileM.leaveScope
  rw [EStateM.bind_ok (EStateM.get_apply c)]
  cases c.outer <;> exact .of_eq rfl rfl

theorem openFunction (name : Option String) (params : List Node) :
    Keeps (openFunction name params) := by
  constructor
  intro c
  have hparams : Keeps (params.forM defineParam) :=
    stepwise.forM (fun param => (stepwise.need _ _).bind fun name =>
      stepwise.discard (define name)) params
  have hp := hparams.continues (c.entered name [])
  have he : c.Continues (c.entered name []) := by
    refine .of_eq rfl ?_
    unfold Compiler.entered Draft.enter
    cases given? name <;> rfl
  rw [openFunction_apply]
  cases h : (params.forM defineParam) (c.entered name []) with
  | ok a c' | error e c' =>
    rw [h] at hp
    exact he.trans hp

theorem makeFunction (name : Option String) (params : List Node) (table : Table) (code : Code) :
    Keeps (makeFunction name params table code) := by
  unfold ClosureVM.makeFunction
  have hadd (f : Nat → Prototype) : Keeps (CompileM.addFunction f) :=
    ⟨fun _ => .push (.inr ⟨_, rfl⟩)⟩
  exact (stepwise.forM stepwise.load _).bind fun _ => (hadd _).bind fun _ => stepwise.emit _ _

theorem compileFunction (name : Option String) (params : List Node) {body : CompileM Unit}
    (hb : Keeps body) : Keeps (compileFunction name params body) := by
  rw [compileFunction_eq]
  exact (openFunction name params).bind fun _ => hb.bind fun _ => stepwise.compileReturn.bind
    fun _ => stepwise.get.bind fun c => leaveScope.bind fun code => makeFunction ..

theorem compositional : Compositional @Keeps where
  toStepwise := stepwise
  literal hv := ⟨fun _ => .push (.inl hv)⟩
  define := define
  resolve := resolve
  function name params _ := compileFunction name params

end Keeps

/-- Constants that were added can be cut off again. -/
theorem Extends.take_eq {pool pool' : Array Value} (h : Extends pool pool') :
    pool'.take pool.size = pool := by
  obtain ⟨rest, hr⟩ := h
  apply Array.ext'
  simp [← hr]

/-- A program with an error leaves a session as it was. -/
theorem Session.compile_error {s s' : Session} {program : Node} {e : CompileError}
    (h : s.compile program = (.error (.error e), s')) : s' = s := by
  cases program with
  | program line statements =>
    rw [compile_program] at h
    have hk := (Keeps.compositional.stmts statements).continues s.compiler
    cases hc : compileStmts statements s.compiler with
    | ok u c =>
      rw [hc] at h
      cases h
    | error stop c =>
      rw [hc] at h hk
      cases stop with
      | error e =>
        cases h
        exact congrArg (fun constants => { s with constants }) hk.constants.take_eq
      | missing what => cases h
  | _ =>
    cases h
    rfl

/-- Whatever a session is given to compile, its compiler only goes on. -/
theorem Session.compile_continues {s s' : Session} {program : Node} {r : Except CompileStop Code}
    (h : s.compile program = (r, s')) :
    s.compiler.Continues s'.compiler ∧
      s' = { s with constants := s'.constants, names := s'.names, last := s'.last } := by
  cases program with
  | program line statements =>
    have hk := (Keeps.compositional.stmts statements).continues s.compiler
    have hp := compile_program s line statements
    cases hc : compileStmts statements s.compiler with
    | ok u c =>
      rw [hc] at hp hk
      rw [hp] at h
      cases h
      exact ⟨⟨hk.constants, hk.added, hk.global, hk.numbered, hk.numDefinitions⟩, rfl⟩
    | error e c =>
      rw [hc] at hp hk
      cases e with
      | error e =>
        rw [hp] at h
        cases h
        have hs := compile_error hp
        rw [hs]
        exact ⟨.of_eq rfl rfl, rfl⟩
      | missing what =>
        rw [hp] at h
        cases h
        exact ⟨⟨hk.constants, hk.added, hk.global, hk.numbered, hk.numDefinitions⟩, rfl⟩
  | _ =>
    cases h
    exact ⟨.of_eq rfl rfl, rfl⟩

/-- Its pool is only added to, and its names stand for globals and builtins. -/
theorem Session.compile_keeps {s s' : Session} {program : Node} {r : Except CompileStop Code}
    (h : s.compile program = (r, s')) (hg : s.names.Shared) :
    Extends s.constants s'.constants ∧ s'.names.Shared ∧
      s' = { s with constants := s'.constants, names := s'.names, last := s'.last } := by
  obtain ⟨hk, he⟩ := compile_continues h
  exact ⟨hk.constants, hk.global hg, he⟩

end ClosureVM
