import ClosureVM.Proofs.Compiler.Checked
import ClosureVM.Proofs.Compiler.Interrupted
import ClosureVM.Proofs.Machine.Runs
import ClosureVM.Proofs.Machine.Typing

/-! The machines and sessions that programs lead to, and what holds in all of them. -/
namespace ClosureVM

/-- The run ended for want of stack, frames or steps. -/
def Exhausted (r : Except Failure Value) : Prop :=
  ∃ f ip calls, r = .error (.fault f ip calls) ∧ f.IsResource

instance : DecidablePred Exhausted
  | .error (.fault f ip calls) => decidable_of_iff f.IsResource
    ⟨fun h => ⟨f, ip, calls, rfl, h⟩, by rintro ⟨_, _, _, ⟨⟩, h⟩; exact h⟩
  | .error .outOfRange | .error .unwritable | .ok _ => .isFalse (by rintro ⟨_, _, _, ⟨⟩, _⟩)

/-- The configuration in which a program starts. -/
def Config.start (code : List Piece) (constants : Array Value) (globals : Slots)
    (limits : Limits) (tracing : Bool) (fresh : Nat) : Config :=
  { constants, globals, limits, tracing, fresh, current := { code } }

theorem Represents.start {ps : List Piece} (hf : Piece.Fits 0 ps) (constants : Array Value)
    (globals : Slots) (limits : Limits) (tracing : Bool) (fresh : Nat) :
    Represents (Machine.new (Piece.layout 0 ps).toArray constants globals limits tracing fresh)
      (Config.start ps constants globals limits tracing fresh) := by
  have hbody : Prototype.HasBody
      { id := constants.size, code := (Piece.layout 0 ps).toArray, name := some "<main>" } ps :=
    ⟨hf, rfl⟩
  exact ⟨rfl, rfl, rfl, rfl, rfl, rfl, fun _ => rfl, rfl, rfl, rfl, (fun _ _ hv => nomatch hv),
    ⟨hbody.follows, rfl, .inl rfl, rfl⟩, trivial⟩

namespace Machine

/-- A machine goes over to another, and all machines on the way have the property `P`. -/
inductive Reaches (P : Machine → Prop) (m₀ : Machine) : Machine → Prop
  | start : P m₀ → Reaches P m₀ m₀
  | step {m m' : Machine} : Reaches P m₀ m → m.Next m' → P m' → Reaches P m₀ m'

/-- The sizes of strings and arrays on the stack are among `N`. -/
def Measures (N : Int → Prop) (m : Machine) : Prop :=
  ∀ i v, m.stack.get? i = some v → v.Measures N

theorem measures_true (m : Machine) : m.Measures fun _ => True := by
  intro i v _
  cases v <;> trivial

theorem Reaches.property {P : Machine → Prop} {m₀ m : Machine} (h : Reaches P m₀ m) : P m := by
  cases h <;> assumption

theorem Reaches.head {P : Machine → Prop} {m₀ m₁ m : Machine} (h₀ : P m₀) (hn : m₀.Next m₁)
    (h : Reaches P m₁ m) : Reaches P m₀ m := by
  induction h with
  | start h₁ => exact .step (.start h₀) hn h₁
  | step _ hn' hp ih => exact .step ih hn' hp

theorem Reaches.with {P Q : Machine → Prop} {m₀ m : Machine} (h : Reaches P m₀ m)
    (hq : ∀ m, Reaches P m₀ m → Q m) : Reaches Q m₀ m := by
  induction h with
  | start hp => exact .start (hq _ (.start hp))
  | step h hn hp ih => exact .step ih hn (hq _ (.step h hn hp))

/-- Goes so many steps, if that is possible and all machines on the way pass the check. -/
def walk? (check : Machine → Bool) : Nat → Machine → Option Machine
  | 0, m => if check m then some m else none
  | n + 1, m =>
    if check m && !m.finished then
      match MachineM.step m with
      | .ok _ m' => walk? check n m'
      | .error .. => none
    else none

theorem reaches_of_walk? {check : Machine → Bool} {n : Nat} {m m' : Machine}
    (h : walk? check n m = some m') : Reaches (fun m => check m = true) m m' := by
  induction n generalizing m with
  | zero =>
    rw [walk?] at h
    split at h
    · cases h
      exact .start ‹_›
    · cases h
  | succ n ih =>
    rw [walk?] at h
    split at h
    · rename_i hcheck
      obtain ⟨hp, hf⟩ := Bool.and_eq_true_iff.mp hcheck
      cases hs : MachineM.step m with
      | ok u m₁ =>
        rw [hs] at h
        exact (ih h).head hp ⟨Bool.not_eq_true' _ ▸ hf, hs⟩
      | error s m₁ =>
        rw [hs] at h
        cases h
    · cases h

theorem next_of_walk? {m m' : Machine} (h : walk? (fun _ => true) 1 m = some m') : m.Next m' := by
  cases hf : m.finished with
  | true => simp [walk?, hf] at h
  | false =>
    cases hs : MachineM.step m with
    | ok u m₁ =>
      simp only [walk?, hf, hs] at h
      cases h
      exact ⟨hf, hs⟩
    | error s m₁ => simp [walk?, hf, hs] at h

/-- All machines of a run that ends within so many steps pass the check. -/
def passes (check : Machine → Bool) : Nat → Machine → Bool
  | 0, _ => false
  | n + 1, m =>
    check m && (m.finished ||
      match MachineM.step m with
      | .ok _ m' => passes check n m'
      | .error .. => true)

theorem Reaches.check_of_passes {P : Machine → Prop} {check : Machine → Bool} {n : Nat}
    {m₀ m : Machine} (hm : Reaches P m₀ m) (h : passes check n m₀ = true) : check m = true := by
  -- what is left of the run passes as well
  have hrest : ∃ n, passes check n m = true := by
    induction hm with
    | start _ => exact ⟨n, h⟩
    | step _ hn _ ih =>
      obtain ⟨k, hk⟩ := ih
      cases k with
      | zero => cases hk
      | succ k =>
        rw [passes, hn.1, hn.2, Bool.false_or] at hk
        exact ⟨k, (Bool.and_eq_true_iff.mp hk).2⟩
  obtain ⟨k, hk⟩ := hrest
  cases k with
  | zero => cases hk
  | succ k =>
    rw [passes] at hk
    exact (Bool.and_eq_true_iff.mp hk).1

/-- What the rest of a run ends with, the run ends with. -/
theorem Reaches.exists_run? {P : Machine → Prop} {m₀ m : Machine} (h : Reaches P m₀ m)
    {fuel : Nat} {done : Except Failure Value × Machine} (hr : m.run? fuel = some done) :
    ∃ fuel, m₀.run? fuel = some done := by
  induction h generalizing fuel with
  | start _ => exact ⟨fuel, hr⟩
  | step _ hn _ ih => exact ih ((hn.run? fuel).trans hr)

/-- A run ends in a machine that it reaches, or in a step from there that fails. -/
theorem exists_of_run?_eq_some {fuel : Nat} {m₀ m' : Machine} {r : Except Failure Value}
    (h : m₀.run? fuel = some (r, m')) :
    ∃ m, Reaches (fun _ => True) m₀ m ∧
      (m.finished = true ∧ r = .ok m.lastPopped ∧ m' = m ∨
        m.finished = false ∧
          ∃ stop, MachineM.step m = .error stop m' ∧ r = .error (m'.failure stop)) := by
  induction h using run?_induction with
  | finished hf => exact ⟨_, .start trivial, .inl ⟨hf, rfl, rfl⟩⟩
  | stopped hf hs => exact ⟨_, .start trivial, .inr ⟨hf, _, hs, rfl⟩⟩
  | next hn _ ih =>
    obtain ⟨m, hm, hend⟩ := ih
    exact ⟨m, hm.head trivial hn, hend⟩

end Machine

namespace Represents

variable {m m' : Machine} {c c' : Config} {N : Int → Prop}

theorem depth_eq (hr : Represents m c) : m.depth = c.callers.length + 1 := by
  rw [Machine.depth, hr.callers.length_eq]

theorem mem_measures (hr : Represents m c) (hm : m.Measures N) :
    ∀ v ∈ c.current.temps, v.Measures N := by
  intro v hv
  have hs : v ∈ c.stack := by
    rw [c.stack_eq]
    simp [hv]
  obtain ⟨i, hi⟩ := List.mem_iff_getElem?.mp hs
  exact hm i v (hr.carries i v hi)

/-- A step of a machine that represents a typed configuration. -/
theorem step_ordinary (hr : Represents m c) (ht : c.Typed N) (hf : m.finished = false)
    (hN : ∀ n, IsWord n → N n) (hm : m.Measures N) :
    match MachineM.step m with
    | .ok _ m' => ∃ c', c.Next c' ∧ Represents m' c' ∧ c'.Typed N
    | .error s m' => s.IsOrdinary N ∧ m'.globals.Sound c.constants N := by
  have hc : c.current.code ≠ [] := fun hc => by
    rw [hr.finished_iff.mpr hc] at hf
    cases hf
  obtain ⟨max, m', -, he, hr'⟩ | hcov := hr.step hc
  · rw [he]
    exact ⟨.inr trivial, hr'.globals ▸ ht.globals⟩
  · have hsafe := ht.step hc hN (hr.mem_measures hm)
    have hk := c.step_keeps
    cases hs : c.step with
    | stuck =>
      rw [hs] at hsafe
      exact absurd hsafe id
    | next c' =>
      rw [hs] at hcov hsafe
      obtain ⟨m', he, hr'⟩ := hcov
      rw [he]
      exact ⟨c', hs, hr', hsafe⟩
    | stop s c' =>
      rw [hs] at hcov hsafe hk
      obtain ⟨m', he, hr'⟩ := hcov
      rw [he]
      exact ⟨hsafe.1, hr'.globals ▸ hk.1 ▸ hsafe.2⟩

theorem next (hr : Represents m c) (ht : c.Typed fun _ => True) (hn : m.Next m') :
    ∃ c', c.Next c' ∧ Represents m' c' ∧ c'.Typed fun _ => True := by
  have hstep := hr.step_ordinary ht hn.1 (fun _ _ => trivial) m.measures_true
  rw [hn.2] at hstep
  exact hstep

/-- A step that fails for a limit of the machine leaves all as it was. Any other stops the
configuration as well. -/
theorem step_error (hr : Represents m c) (ht : c.Typed fun _ => True) (hf : m.finished = false)
    {s : Stop} (he : MachineM.step m = .error s m') :
    Represents m' c ∨ ∃ c', c.step = .stop s c' ∧ Represents m' c' := by
  have hc : c.current.code ≠ [] := fun hc => by
    rw [hr.finished_iff.mpr hc] at hf
    cases hf
  rcases hr.step hc with ⟨max, m₁, -, he₁, hr₁⟩ | hcov
  · rw [he] at he₁
    cases he₁
    exact .inl hr₁
  · rw [he] at hcov
    have hsafe := ht.step hc (fun _ _ => trivial) (hr.mem_measures m.measures_true)
    cases hs : c.step with
    | stuck =>
      rw [hs] at hsafe
      exact absurd hsafe id
    | next c' =>
      rw [hs] at hcov
      obtain ⟨m₁, he₁, -⟩ := hcov
      cases he₁
    | stop s' c' =>
      rw [hs] at hcov
      obtain ⟨m₁, he₁, hr₁⟩ := hcov
      cases he₁
      exact .inr ⟨c', rfl, hr₁⟩

/-- Without a step limit, the machine takes every step of its configuration. -/
theorem exists_next (h : Represents m c) (hl : c.limits.maxSteps = none) (hn : c.Next c') :
    ∃ m', m.Next m' ∧ Represents m' c' := by
  have hc := hn.code_ne_nil
  have hf : m.finished = false := by
    rw [← Bool.not_eq_true, h.finished_iff]
    exact hc
  obtain ⟨max, -, hmax, -⟩ | hcov := h.step hc
  · rw [hl] at hmax
    cases hmax
  · rw [hn] at hcov
    obtain ⟨m', he, hr⟩ := hcov
    exact ⟨m', ⟨hf, he⟩, hr⟩

theorem exists_reaches (h : Represents m c) (hl : c.limits.maxSteps = none)
    (hs : Relation.ReflTransGen Config.Next c c') :
    ∃ m', Machine.Reaches (fun _ => True) m m' ∧ Represents m' c' := by
  induction hs with
  | refl => exact ⟨m, .start trivial, h⟩
  | tail hs hn ih =>
    obtain ⟨m₁, hm, hr⟩ := ih
    have hl₁ := (Config.keeps_of_steps hs).2.1
    obtain ⟨m₂, hn', hr'⟩ := hr.exists_next (hl₁ ▸ hl) hn
    exact ⟨m₂, hm.step hn' trivial, hr'⟩

end Represents

/-- All machines that a typed configuration leads to represent typed configurations. -/
theorem Machine.Reaches.represents {P : Machine → Prop} {N : Int → Prop} {m₀ m : Machine}
    {c₀ : Config} (h : Reaches P m₀ m) (hr : Represents m₀ c₀) (ht : c₀.Typed N)
    (hN : ∀ n, IsWord n → N n) (hP : ∀ m, P m → m.Measures N) :
    ∃ c, Relation.ReflTransGen Config.Next c₀ c ∧ Represents m c ∧ c.Typed N := by
  induction h with
  | start _ => exact ⟨c₀, .refl, hr, ht⟩
  | step hm hn _ ih =>
    obtain ⟨c, hsteps, hr', ht'⟩ := ih
    have hstep := hr'.step_ordinary ht' hn.1 hN (hP _ hm.property)
    rw [hn.2] at hstep
    obtain ⟨c', hnext, hr'', ht''⟩ := hstep
    exact ⟨c', hsteps.tail hnext, hr'', ht''⟩

theorem Table.shared_builtins : Table.builtins.Shared := by
  have hfold (l : List (Builtin × Nat)) (hl : ∀ p ∈ l, p.2 < Builtin.all.length) (t : Table)
      (ht : t.Shared) : (l.foldl (fun t p => (t.defineBuiltin p.2 p.1.name).2) t).Shared := by
    induction l generalizing t with
    | nil => exact ht
    | cons p l ih =>
      obtain ⟨hp, hl⟩ := List.forall_mem_cons.mp hl
      refine ih hl _ fun s hs => ?_
      obtain rfl | hs := Table.mem_insert hs
      · exact ⟨p.2, rfl, hp⟩
      · exact ht s hs
  exact hfold _ (by decide) {} (List.forall_mem_nil _)

theorem Table.numbered_builtins : Table.builtins.Numbered := by
  unfold Table.Numbered
  decide

namespace Session

/-- A machine about to run code of the session, within any limits. -/
def machineWithin (s : Session) (limits : Limits) (tracing : Bool) (code : Code) : Machine :=
  Machine.new code s.constants s.globals limits tracing s.fresh

/-- The session after a run that ended in `m`. -/
def after (s : Session) (m : Machine) : Session :=
  { s with globals := m.globals, output := s.output ++ m.output, fresh := m.fresh }

/-- The sessions that programs lead to, whether they are rejected, fail or succeed, and whatever
the limits of the machines that run them. All machines on the way have the property `P`. -/
inductive Reached (P : Machine → Prop) : Session → Prop
  | new (color tracing : Bool) (maxSteps : Option Int) : Reached P { color, tracing, maxSteps }
  | execute {s s' : Session} {fuel : Nat} {program : Node} {r : Except SessionError Value} :
    Reached P s → s.execute? fuel program = some (r, s') →
      (∀ code s₁ m, s.compile program = (.ok code, s₁) →
        Machine.Reaches (fun _ => True) (s₁.machine code) m → P m) → Reached P s'
  | runWithin {s s₁ : Session} {fuel : Nat} {program : Node} {code : Code} {limits : Limits}
    {tracing : Bool} {r : Except Failure Value} {m : Machine} :
    Reached P s → s.compile program = (.ok code, s₁) →
      (s₁.machineWithin limits tracing code).run? fuel = some (r, m) →
      (∀ m, Machine.Reaches (fun _ => True) (s₁.machineWithin limits tracing code) m → P m) →
      Reached P (s₁.after m)

/-- Names stand for globals and builtins, and globals have sound values. -/
structure Sound (N : Int → Prop) (s : Session) : Prop where
  names : s.names.Shared
  globals : s.globals.Sound s.constants N

variable {N : Int → Prop} {s s₁ : Session} {program : Node} {code : Code}

theorem Sound.compile (hs : s.Sound N) {r : Except CompileStop Code}
    (hc : s.compile program = (r, s₁)) : s₁.Sound N := by
  obtain ⟨hp, hn, he⟩ := compile_keeps hc hs.names
  have hg : s₁.globals = s.globals := by rw [he]
  exact ⟨hn, hg ▸ hs.globals.mono hp⟩

/-- The code of statements starts in a typed configuration. -/
theorem Sound.start_typed (hs : s.Sound N) {statements : List Node} {ps : List Piece} {d : Draft}
    (ht : Translates (.stmts statements) s.draft ps d) (hf : Piece.Fits 0 ps) (limits : Limits)
    (tracing : Bool) (fresh : Nat) :
    (Config.start ps d.constants s.globals limits tracing fresh).Typed N := by
  obtain ⟨-, hgrows, hpool, hcheck⟩ := ht.leads ⟨hs.names, trivial⟩ hf
  have hnested : d.env.nested = [] := List.forall₂_nil_left_iff.mp hgrows
  have hcode := hcheck 0
  rw [Environment.shape, hnested] at hcode
  exact ⟨hs.globals.mono hpool, .null,
    ⟨.null, List.forall_mem_nil _, List.forall_mem_nil _, ⟨0, hcode, fun _ => rfl⟩,
      fun hf => by cases hf⟩, List.forall_mem_nil _, rfl, rfl⟩

/-- The machine of a program represents a typed configuration. -/
theorem Sound.start (hs : s.Sound N) (hc : s.compile program = (.ok code, s₁)) :
    ∃ ps, ∀ limits tracing, Represents (s₁.machineWithin limits tracing code)
        (.start ps s₁.constants s₁.globals limits tracing s₁.fresh) ∧
      (Config.start ps s₁.constants s₁.globals limits tracing s₁.fresh).Typed N := by
  obtain ⟨line, statements, ps, d, rfl, ht, hf, rfl, rfl⟩ := compile_eq_ok.mp hc
  exact ⟨ps, fun limits tracing => ⟨.start hf .., hs.start_typed ht hf ..⟩⟩

theorem Sound.after (hs : s.Sound N) (hc : s.compile program = (.ok code, s₁)) {limits : Limits}
    {tracing : Bool} {fuel : Nat} {r : Except Failure Value} {m' : Machine}
    (hr : (s₁.machineWithin limits tracing code).run? fuel = some (r, m'))
    (hN : ∀ n, IsWord n → N n)
    (hm : ∀ m, Machine.Reaches (fun _ => True) (s₁.machineWithin limits tracing code) m →
      m.Measures N) : (s₁.after m').Sound N := by
  obtain ⟨ps, hstart⟩ := hs.start hc
  obtain ⟨hrep, ht⟩ := hstart limits tracing
  obtain ⟨m, hreach, hend⟩ := Machine.exists_of_run?_eq_some hr
  obtain ⟨c, hsteps, hrep', ht'⟩ :=
    (hreach.with hm).represents hrep ht hN fun _ h => h
  have hk : c.constants = s₁.constants := (Config.keeps_of_steps hsteps).1
  refine ⟨(hs.compile hc).names, ?_⟩
  change m'.globals.Sound s₁.constants N
  obtain ⟨-, -, rfl⟩ | ⟨hf, stop, hstop, -⟩ := hend
  · rw [hrep'.globals, ← hk]
    exact ht'.globals
  · have hstep := hrep'.step_ordinary ht' hf hN (hm m hreach)
    rw [hstop] at hstep
    exact hk ▸ hstep.2

/-- A program that is accepted ends as its machine does. -/
theorem execute?_eq_some (hc : s.compile program = (.ok code, s₁)) {fuel : Nat}
    {r : Except SessionError Value} {s' : Session} :
    s.execute? fuel program = some (r, s') ↔
      ∃ r' m, (s₁.machine code).run? fuel = some (r', m) ∧ r = r'.mapError .run ∧
        s' = s₁.after m := by
  rw [execute?, hc]
  dsimp only
  rw [run?, Option.map_map, Option.map_eq_some_iff]
  constructor
  · rintro ⟨⟨r', m⟩, hrun, ⟨⟩⟩
    exact ⟨r', m, hrun, rfl, rfl⟩
  · rintro ⟨r', m, hrun, rfl, rfl⟩
    exact ⟨(r', m), hrun, rfl⟩

theorem Sound.execute (hs : s.Sound N) {fuel : Nat} {r : Except SessionError Value}
    {s' : Session} (he : s.execute? fuel program = some (r, s')) (hN : ∀ n, IsWord n → N n)
    (hm : ∀ code s₁ m, s.compile program = (.ok code, s₁) →
      Machine.Reaches (fun _ => True) (s₁.machine code) m → m.Measures N) : s'.Sound N := by
  match hc : s.compile program with
  | (.error e, s₁) =>
    rw [execute?, hc] at he
    cases he
    exact hs.compile hc
  | (.ok code, s₁) =>
    obtain ⟨r', m, hrun, -, rfl⟩ := (execute?_eq_some hc).mp he
    exact hs.after hc hrun hN fun m h => hm code s₁ m hc h

theorem Reached.sound {P : Machine → Prop} (h : Reached P s) (hN : ∀ n, IsWord n → N n)
    (hP : ∀ m, P m → m.Measures N) : s.Sound N := by
  induction h with
  | new color tracing maxSteps =>
    refine ⟨Table.shared_builtins, rfl, fun i v hv => ?_⟩
    rw [← (Slots.get?_eq_some hv).2]
    exact .null
  | execute _ he hm ih => exact ih.execute he hN fun code s₁ m hc h => hP m (hm code s₁ m hc h)
  | runWithin _ hc hr hm ih => exact ih.after hc hr hN fun m h => hP m (hm m h)

/-- What new sessions have, and rejected programs and runs preserve, all sessions have. -/
theorem Reached.preserves {P : Machine → Prop} {I : Session → Prop} (h : Reached P s)
    (new : ∀ color tracing maxSteps, I { color, tracing, maxSteps })
    (reject : ∀ {s s₁ : Session} {program : Node} {e : CompileStop}, Reached P s → I s →
      s.compile program = (.error e, s₁) → I s₁)
    (run : ∀ {s s₁ : Session} {program : Node} {code : Code} {limits : Limits} {tracing : Bool}
      {fuel : Nat} {r : Except Failure Value} {m : Machine}, Reached P s → I s →
      s.compile program = (.ok code, s₁) →
      (s₁.machineWithin limits tracing code).run? fuel = some (r, m) →
      (∀ m, Machine.Reaches (fun _ => True) (s₁.machineWithin limits tracing code) m → P m) →
      I (s₁.after m)) : I s := by
  induction h with
  | new color tracing maxSteps => exact new color tracing maxSteps
  | @execute s s' fuel program r hs he hP ih =>
    cases hc : s.compile program with
    | mk result s₁ =>
      cases result with
      | error e =>
        rw [execute?, hc] at he
        cases he
        exact reject hs ih hc
      | ok code =>
        obtain ⟨r', m, hrun, -, rfl⟩ := (execute?_eq_some hc).mp he
        exact run hs ih hc hrun fun m hm => hP code s₁ m hc hm
  | runWithin hs hc hr hP ih => exact run hs ih hc hr hP

end Session

end ClosureVM
