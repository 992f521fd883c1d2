import ClosureVM.Proofs.Machine.Recast
import ClosureVM.Proofs.Machine.Termination
import ClosureVM.Proofs.Session.History

/-! Two programs one after the other do what their concatenation does. -/
namespace ClosureVM

/-- The same error, wherever it was found. -/
def Failure.Same : Failure → Failure → Prop
  | .fault f _ _, .fault f' _ _ => f = f'
  | .outOfRange, .outOfRange | .unwritable, .unwritable => True
  | _, _ => False

theorem Machine.failure_same (m m' : Machine) (s : Stop) : (m.failure s).Same (m'.failure s) := by
  cases s <;> trivial

/-- The step to come pops a value of the program itself. -/
def Machine.AtPop (m : Machine) : Prop :=
  m.callers = [] ∧ m.frame.code[m.frame.ip]?.bind Opcode.ofByte? = some .pop

/-- Some step of the run pops a value of the program itself. -/
def Machine.Pops (m₀ : Machine) : Prop :=
  ∃ m m', Machine.Reaches (fun _ => True) m₀ m ∧ m.Next m' ∧ m.AtPop

namespace Represents

variable {m : Machine} {c c' : Config}

private theorem callers_eq_nil (h : Represents m c) : m.callers = [] ↔ c.callers = [] := by
  rw [← List.length_eq_zero_iff, ← List.length_eq_zero_iff, h.callers.length_eq]

theorem atPop_iff (h : Represents m c) (hc : c.current.code ≠ []) : m.AtPop ↔ c.pops = true := by
  have hf := h.current.follows
  have hop {i : Instruction} (hi : m.frame.code.fetch? m.frame.ip = some i) :
      m.frame.code[m.frame.ip]?.bind Opcode.ofByte? = some i.op := by
    obtain ⟨byte, hb, hop, -⟩ := Code.fetch?_eq_some hi
    rw [hb, Option.bind_some, hop]
  rw [Machine.AtPop, h.callers_eq_nil]
  cases hcode : c.current.code with
  | nil => exact absurd hcode hc
  | cons p rest =>
    rw [hcode] at hf
    cases p with
    | ins i =>
      rw [hop hf.of_ins.1, Config.pops_of_ins hcode, Bool.and_eq_true, List.isEmpty_iff,
        Option.some_inj, beq_iff_eq]
    | branch t e =>
      obtain ⟨target, hi, -⟩ := hf.of_branch
      rw [hop hi, Config.pops, hcode]
      simp
    | skip =>
      obtain ⟨target, hi, -⟩ := hf.of_skip
      rw [hop hi, Config.pops, hcode]
      simp

theorem pops_iff (h : Represents m c) (hl : c.limits.maxSteps = none)
    (ht : c.Typed fun _ => True) : m.Pops ↔ c.Pops := by
  constructor
  · rintro ⟨m₁, m₂, hm, hn, hpop⟩
    obtain ⟨c₁, hs, hr₁, ht₁⟩ :=
      hm.represents h ht (fun _ _ => trivial) fun m _ => m.measures_true
    have hstep := hr₁.step_ordinary ht₁ hn.1 (fun _ _ => trivial) m₁.measures_true
    rw [hn.2] at hstep
    obtain ⟨c₂, hn', -⟩ := hstep
    exact ⟨c₁, c₂, hs, hn', (hr₁.atPop_iff hn'.code_ne_nil).mp hpop⟩
  · rintro ⟨c₁, c₂, hs, hn, hpop⟩
    obtain ⟨m₁, hm, hr₁⟩ := h.exists_reaches hl hs
    have hl₁ := (Config.keeps_of_steps hs).2.1
    obtain ⟨m₂, hn', -⟩ := hr₁.exists_next (hl₁ ▸ hl) hn
    exact ⟨m₁, m₂, hm, hn', (hr₁.atPop_iff hn.code_ne_nil).mpr hpop⟩

/-- Without traces, the output is what was written. -/
theorem output_eq (h : Represents m c) (ht : c.tracing = false) :
    m.output = (c.written.map .puts).toArray := by
  rw [← h.untraced ht]

end Represents

/-- The code of a list of statements is that of its parts. -/
theorem Translates.of_append {first second : List Node} {d d' : Draft} {ps : List Piece}
    (h : Translates (.stmts (first ++ second)) d ps d') :
    ∃ qs rs d₁, ps = qs ++ rs ∧ Translates (.stmts first) d qs d₁ ∧
      Translates (.stmts second) d₁ rs d' := by
  induction first generalizing d ps with
  | nil => exact ⟨[], ps, d, rfl, .noStmts, h⟩
  | cons node first ih =>
    cases h with
    | @stmts _ _ _ _ _ ps' _ hnode hrest =>
      obtain ⟨qs, rs, d₁, rfl, hfirst, hsecond⟩ := ih hrest
      exact ⟨ps' ++ qs, rs, d₁, (List.append_assoc ..).symm, .stmts hnode hfirst, hsecond⟩

namespace Config

variable {c c' : Config} {v : Value}

theorem Ends.of_ok (h : c.Ends (.ok v) c') :
    Relation.ReflTransGen Next c c' ∧ c'.current.code = [] ∧ v = c'.lastPopped := by
  generalize hr : Except.ok v = r at h
  induction h with
  | done hc =>
    cases hr
    exact ⟨.refl, hc, rfl⟩
  | stop hs => cases hr
  | next hn _ ih =>
    obtain ⟨hs, hc⟩ := ih hr
    exact ⟨.head hn hs, hc⟩

theorem Ends.tracing_eq {r : Except Stop Value} (h : c.Ends r c') : c'.tracing = c.tracing := by
  induction h with
  | done => rfl
  | @stop c c' s hs =>
    have hk := c.step_keeps
    rw [hs] at hk
    exact hk.2.2.1
  | next hn _ ih => exact ih.trans hn.keeps.2.2.1

theorem Typed.of_steps (ht : c.Typed fun _ => True) (h : Relation.ReflTransGen Next c c') :
    c'.Typed fun _ => True := by
  induction h with
  | refl => exact ht
  | tail _ hn ih =>
    have hsafe := ih.step hn.code_ne_nil (fun _ _ => trivial) fun v _ => by cases v <;> trivial
    rwa [hn] at hsafe

section Concatenation

variable {ps qs : List Piece} {pool pool' : Array Value} {globals : Slots} {limits : Limits}
  {tracing : Bool} {fresh : Nat}

/-- Where the first of two parts has ended, the second starts, except that there is output
already and a value popped last. -/
theorem recast_of_ends (ht : (start ps pool globals limits tracing fresh).Typed fun _ => True)
    (h : (start ps pool globals limits tracing fresh).Ends (.ok v) c) :
    c.recast { limits, constants := pool', more := qs } =
      (start qs pool' c.globals limits tracing c.fresh).recast
        { limits, constants := pool', written := c.written, lastPopped := some v } := by
  obtain ⟨hs, hcode, rfl⟩ := h.of_ok
  obtain ⟨hcurrent, hcallers⟩ := (ht.of_steps hs).of_code_eq_nil hcode
  have htracing : c.tracing = tracing := (keeps_of_steps hs).2.2.1
  simp only [Config.recast, Activation.extend, extendLast, start, hcurrent, hcallers, htracing,
    List.isEmpty_nil, if_true, List.nil_append, List.append_nil, Option.getD_none,
    Option.getD_some]

/-- Code that is made up of two parts runs one after the other. -/
theorem start_append_ends (hp : Extends pool pool')
    (ht : (start ps pool globals limits tracing fresh).Typed fun _ => True)
    (h : (start ps pool globals limits tracing fresh).Ends (.ok v) c) {r : Except Stop Value}
    (h' : (start qs pool' c.globals limits tracing c.fresh).Ends r c') :
    ∃ w : Setting, w.written = c.written ∧
      ((start qs pool' c.globals limits tracing c.fresh).Pops → w.lastPopped = none) ∧
      (¬ (start qs pool' c.globals limits tracing c.fresh).Pops → w.lastPopped = some v) ∧
      (start (ps ++ qs) pool' globals limits tracing fresh).Ends
        (r.map fun _ => (c'.recast w).lastPopped) (c'.recast w) := by
  let w : Setting := { limits, constants := pool', written := c.written, lastPopped := some v }
  refine ⟨w.after (start qs pool' c.globals limits tracing c.fresh), rfl,
    fun hp => if_pos hp, fun hp => if_neg hp, ?_⟩
  have hsteps := steps_recast (w := { limits, constants := pool', more := qs }) h.of_ok.1
    ⟨.refl _, hp⟩ rfl
  rw [recast_of_ends ht h] at hsteps
  exact .of_steps hsteps (h'.recast ⟨.refl _, .refl _⟩ rfl rfl)

end Concatenation

end Config

namespace Session

variable {s s₁ : Session} {program : Node} {code : Code}

theorem execute?_unique {f g : Nat} {x y : Except SessionError Value × Session}
    (hf : s.execute? f program = some x) (hg : s.execute? g program = some y) : x = y := by
  match hc : s.compile program with
  | (.error e, s₁) =>
    rw [execute?, hc] at hf hg
    exact Option.some.inj (hf.symm.trans hg)
  | (.ok code, s₁) =>
    obtain ⟨r, m, hrun, h₁, h₂⟩ := (execute?_eq_some hc).mp hf
    obtain ⟨r', m', hrun', h₁', h₂'⟩ := (execute?_eq_some hc).mp hg
    obtain ⟨rfl, rfl⟩ := Prod.mk.inj (Machine.run?_unique hrun hrun')
    exact Prod.ext (h₁.trans h₁'.symm) (h₂.trans h₂'.symm)

/-- The session once it has compiled statements to `ps`. -/
def adopt (s : Session) (d : Draft) (ps : List Piece) : Session :=
  { s with
    constants := d.constants
    names := d.env.global
    last := some (Piece.layout 0 ps).toArray }

section Statements

variable {statements : List Node} {ps : List Piece} {d : Draft}

theorem compile_statements (line : Line) (ht : Translates (.stmts statements) s.draft ps d)
    (hf : Piece.Fits 0 ps) :
    s.compile (.program line statements) = (.ok (Piece.layout 0 ps).toArray, s.adopt d ps) :=
  compile_eq_ok.mpr ⟨line, statements, ps, d, rfl, ht, hf, rfl, rfl⟩

/-- The next program is compiled on the draft that the statements leave behind. -/
theorem draft_after (hs : s.names.Shared) (ht : Translates (.stmts statements) s.draft ps d)
    (hf : Piece.Fits 0 ps) (m : Machine) : ((s.adopt d ps).after m).draft = d := by
  have hgrows := (ht.leads ⟨hs, trivial⟩ hf).grows
  have hnested : d.env.nested = [] := List.forall₂_nil_left_iff.mp hgrows
  obtain ⟨constants, global, nested⟩ := d
  cases hnested
  rfl

/-- Without a step limit, a program ends as the run of its configuration. -/
theorem exists_execute? (line : Line) (ht : Translates (.stmts statements) s.draft ps d)
    (hf : Piece.Fits 0 ps) (hmax : s.maxSteps = none) {r : Except Stop Value} {c : Config}
    (he : (Config.start ps d.constants s.globals { maxSteps := s.maxSteps } s.tracing
      s.fresh).Ends r c) :
    ∃ fuel m, Represents m c ∧ s.execute? fuel (.program line statements) =
      some ((r.mapError m.failure).mapError .run, (s.adopt d ps).after m) := by
  obtain ⟨fuel, m, ⟨max, hmax', -⟩ | ⟨hm, hrun⟩⟩ := he.run? (.start hf ..)
  · exact absurd (hmax.symm.trans hmax') nofun
  · have hc := compile_statements line ht hf
    exact ⟨fuel, m, hm, (execute?_eq_some hc).mpr ⟨_, m, hrun, rfl, rfl⟩⟩

end Statements

/-- Sessions with the same globals, constants, names and output. -/
structure Same (s s' : Session) : Prop where
  globals : s'.globals = s.globals
  constants : s'.constants = s.constants
  names : s'.names = s.names
  output : s'.output = s.output

/-- How a program ends by itself, and how it ends behind another one with the value `v`: with the
same error, or with its own value if it pops one, else with `v`. -/
inductive EndsBehind (v : Value) (pops : Prop) :
    Except SessionError Value → Except SessionError Value → Prop
  | error {e e' : Failure} : e.Same e' → EndsBehind v pops (.error (.run e)) (.error (.run e'))
  | popped {u : Value} : pops → EndsBehind v pops (.ok u) (.ok u)
  | unpopped {u : Value} : ¬ pops → EndsBehind v pops (.ok u) (.ok v)

/-- Executing two programs one after the other leaves the same behind as executing them as one,
and ends the same way. -/
theorem Reached.execute_append {P : Machine → Prop} {s s₁ s' : Session}
    {line line₁ line₂ : Line} {first second : List Node} {code : Code} {fuel : Nat} {v : Value}
    (hs : Reached P s) (hmax : s.maxSteps = none) (htrace : s.tracing = false)
    (hc : s.compile (.program line (first ++ second)) = (.ok code, s'))
    (h₁ : s.execute? fuel (.program line₁ first) = some (.ok v, s₁)) :
    ∃ code₂ s₁' fuel₂ r₂ s₂ fuel₃ r₃ s₃,
      s₁.compile (.program line₂ second) = (.ok code₂, s₁') ∧
      s₁.execute? fuel₂ (.program line₂ second) = some (r₂, s₂) ∧
      s.execute? fuel₃ (.program line (first ++ second)) = some (r₃, s₃) ∧
      s₂.Same s₃ ∧ EndsBehind v (s₁'.machine code₂).Pops r₂ r₃ := by
  have hsound := hs.sound (fun _ _ => trivial) fun m _ => m.measures_true
  obtain ⟨_, _, ps, d, ⟨⟩, ht, hf, rfl, rfl⟩ := compile_eq_ok.mp hc
  obtain ⟨ps, qs, d₁, rfl, ht₁, ht₂⟩ := ht.of_append
  obtain ⟨hf₁, hf₂⟩ := Piece.fits_append.mp hf
  have hf₂ := hf₂.mono (Nat.zero_le _)
  have hpool := (ht₂.leads (ht₁.leads ⟨hsound.names, trivial⟩ hf₁).closed hf₂).pool
  -- the first program
  have htyped₁ := hsound.start_typed ht₁ hf₁ { maxSteps := s.maxSteps } s.tracing s.fresh
  obtain ⟨r₁, c₁, he₁⟩ := htyped₁.ends
  obtain ⟨fuel₁, m₁, hm₁, hx₁⟩ := exists_execute? line₁ ht₁ hf₁ hmax he₁
  have hsound₁ := hsound.execute h₁ (fun _ _ => trivial) fun _ _ m _ _ => m.measures_true
  obtain ⟨hr₁, rfl⟩ := Prod.mk.inj (execute?_unique hx₁ h₁)
  obtain rfl : r₁ = .ok v := by
    cases r₁ with
    | ok u => exact congrArg Except.ok (Except.ok.inj hr₁)
    | error e => cases hr₁
  -- the second program
  rw [← draft_after hsound.names ht₁ hf₁ m₁] at ht₂
  have htyped₂ := hsound₁.start_typed ht₂ hf₂ { maxSteps := s.maxSteps } s.tracing m₁.fresh
  have hstart : Config.start qs d.constants c₁.globals { maxSteps := s.maxSteps } s.tracing
      c₁.fresh = .start qs d.constants m₁.globals { maxSteps := s.maxSteps } s.tracing
        m₁.fresh := by
    rw [hm₁.globals, hm₁.fresh]
  obtain ⟨r₂, c₂, he₂⟩ := htyped₂.ends
  obtain ⟨fuel₂, m₂, hm₂, hx₂⟩ := exists_execute? line₂ ht₂ hf₂ hmax he₂
  have hrep := Represents.start hf₂ d.constants m₁.globals { maxSteps := s.maxSteps } s.tracing
    m₁.fresh
  have hpops := hrep.pops_iff hmax htyped₂
  -- both as one
  obtain ⟨w, hwritten, hpopped, hunpopped, he₃⟩ :=
    Config.start_append_ends hpool htyped₁ he₁ (hstart ▸ he₂)
  obtain ⟨fuel₃, m₃, hm₃, hx₃⟩ := exists_execute? line ht hf hmax he₃
  refine ⟨_, _, fuel₂, _, _, fuel₃, _, _, compile_statements line₂ ht₂ hf₂, hx₂, hx₃,
    ⟨hm₃.globals.trans hm₂.globals.symm, rfl, rfl, ?_⟩, ?_⟩
  · have ho : m₃.output = m₁.output ++ m₂.output := by
      rw [hm₁.output_eq (he₁.tracing_eq.trans htrace), hm₂.output_eq (he₂.tracing_eq.trans htrace),
        hm₃.output_eq (he₃.tracing_eq.trans htrace), List.append_toArray, ← List.map_append,
        ← hwritten]
      rfl
    change s.output ++ m₃.output = s.output ++ m₁.output ++ m₂.output
    rw [ho, Array.append_assoc]
  · cases r₂ with
    | error e => exact .error (Machine.failure_same ..)
    | ok u =>
      obtain ⟨-, -, rfl⟩ := he₂.of_ok
      change EndsBehind v _ (.ok c₂.lastPopped) (.ok (w.lastPopped.getD c₂.lastPopped))
      rw [hstart] at hpopped hunpopped
      by_cases hp : (Config.start qs d.constants m₁.globals { maxSteps := s.maxSteps } s.tracing
          m₁.fresh).Pops
      · rw [hpopped hp]
        exact .popped (hpops.mpr hp)
      · rw [hunpopped hp]
        exact .unpopped fun hp' => hp (hpops.mp hp')

/-- The second program reads a name of the first. Both jump, both print, and the value of the second
one is the last that is popped. -/
theorem Reached.execute_append_printing :
    ∃ (first second : List Node) (v : Value) (s₁ s₁' s₂ s₃ : Session) (code₂ : Code)
      (fuel₂ fuel₃ : Nat) (r₂ r₃ : Except SessionError Value),
      Session.execute? 40 {} (.program none first) = some (.ok v, s₁) ∧
      s₁.compile (.program none second) = (.ok code₂, s₁') ∧
      s₁.execute? fuel₂ (.program none second) = some (r₂, s₂) ∧
      Session.execute? fuel₃ {} (.program none (first ++ second)) = some (r₃, s₃) ∧
      s₁.output = #[.puts "5"] ∧ s₂.output = #[.puts "5", .puts "big"] ∧
      r₂.toOption.map Value.inspect = some "50" ∧
      s₂.Same s₃ ∧ EndsBehind v (s₁'.machine code₂).Pops r₂ r₃ := by
  let first : List Node := [
    .letStmt none (.ident none "a") (.ifExpr none (.boolLit none true)
      (some (.block none [.exprStmt none (.intLit none (.int 5))])) none),
    .exprStmt none (.call none (.ident none "puts") [.ident none "a"]),
    .exprStmt none (.ident none "a")]
  let second : List Node := [
    .exprStmt none (.ifExpr none (.binary none (.ident none "a") ">" (.intLit none (.int 3)))
      (some (.block none [.exprStmt none (.call none (.ident none "puts") [.strLit none "big"])]))
      (some (.block none [.exprStmt none (.strLit none "small")]))),
    .letStmt none (.ident none "b") (.binary none (.ident none "a") "+" (.ident none "a")),
    .exprStmt none (.binary none (.ident none "a") "*" (.ident none "b"))]
  have hcode : (Session.compile {} (.program none (first ++ second))).1.toOption.isSome = true := by
    decide +kernel
  have hruns : ((Session.execute? 40 {} (.program none first)).bind fun x =>
      ((x.2.execute? 40 (.program none second)).filter fun y => x.1.toOption.isSome &&
        decide (x.2.output = #[.puts "5"] ∧ y.2.output = #[.puts "5", .puts "big"] ∧
          y.1.toOption.map Value.inspect = some "50"))).isSome = true := by
    decide +kernel
  clear_value first second
  obtain ⟨code, hcode⟩ := Option.isSome_iff_exists.mp hcode
  obtain ⟨⟨r₂, s₂⟩, hy⟩ := Option.isSome_iff_exists.mp hruns
  obtain ⟨⟨r₁, s₁⟩, hx, hy⟩ := Option.bind_eq_some_iff.mp hy
  obtain ⟨hy, hcond⟩ := Option.filter_eq_some_iff.mp hy
  obtain ⟨hr, hcond⟩ := Bool.and_eq_true_iff.mp hcond
  obtain ⟨hout₁, hout₂, htext⟩ := of_decide_eq_true hcond
  cases r₁ with
  | error e => cases hr
  | ok v =>
    obtain ⟨code₂, s₁', fuel₂, r₂', s₂', fuel₃, r₃, s₃, hc₂, h₂, h₃, hsame, hends⟩ :=
      execute_append (P := fun _ => True) (.new false false none) rfl rfl
        (compile_of_toOption hcode) hx
    cases execute?_unique h₂ hy
    exact ⟨first, second, v, s₁, s₁', s₂, s₃, code₂, fuel₂, fuel₃, r₂, r₃, hx, hc₂, h₂, h₃, hout₁,
      hout₂, htext, hsame, hends⟩

end Session

end ClosureVM
