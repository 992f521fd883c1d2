import ClosureVM.Proofs.Compiler.Ordered
import ClosureVM.Proofs.Machine.Settling
import ClosureVM.Proofs.Session.History

/-! Over a whole session every global is set at most once, and reading it gives one value ever. -/
namespace ClosureVM

open Piece

namespace Machine

/-- The instruction that the machine executes next. -/
def instruction? (m : Machine) : Option Instruction := m.frame.code.fetch? m.frame.ip

/-- The machine is about to set global `a`. -/
def Sets (m : Machine) (a : Nat) : Prop := m.instruction? = some ⟨.setGlobal, [a]⟩

/-- The machine is about to read global `a`. -/
def Gets (m : Machine) (a : Nat) : Prop := m.instruction? = some ⟨.getGlobal, [a]⟩

instance (m : Machine) (a : Nat) : Decidable (m.Sets a) := inferInstanceAs (Decidable (_ = _))

instance (m : Machine) (a : Nat) : Decidable (m.Gets a) := inferInstanceAs (Decidable (_ = _))

/-- The machines that a run of at most `fuel` steps goes through, each before its step. -/
def trail : Nat → Machine → List Machine
  | 0, _ => []
  | fuel + 1, m =>
    if m.finished then []
    else m :: match MachineM.step m with
      | .ok _ m' => trail fuel m'
      | .error .. => []

variable {m m' : Machine}

theorem trail_of_finished (h : m.finished = true) (fuel : Nat) : m.trail fuel = [] := by
  cases fuel with
  | zero => rfl
  | succ fuel => rw [trail, if_pos h]

theorem trail_of_stop {s : Stop} (hf : m.finished = false) (h : MachineM.step m = .error s m')
    (fuel : Nat) : m.trail (fuel + 1) = [m] := by
  rw [trail, hf, h]
  rfl

theorem Next.trail (h : m.Next m') (fuel : Nat) : m.trail (fuel + 1) = m :: m'.trail fuel := by
  rw [Machine.trail, h.1, h.2]
  rfl

end Machine

/-- Machines that set globals from `lo` up to `hi`, each of them at most once, and read none but
those below `hi`, with the value that it has in the end. -/
structure Recorded (lo hi : Nat) (globals : Slots) (ms : List Machine) : Prop where
  set : ∀ m ∈ ms, ∀ a, m.Sets a → lo ≤ a ∧ a < hi
  once : ms.Pairwise fun m m' => ∀ a, m.Sets a → ¬ m'.Sets a
  read : ∀ m ∈ ms, ∀ a, m.Gets a →
    a < hi ∧ ∃ v, m.globals.get? a = some v ∧ globals.get? a = some v

namespace Recorded

variable {lo mid hi hi' : Nat} {globals globals' : Slots} {ms ms' : List Machine} {m : Machine}

theorem nil : Recorded lo hi globals [] :=
  ⟨List.forall_mem_nil _, .nil, List.forall_mem_nil _⟩

theorem mono (h : Recorded lo hi globals ms) (hle : hi ≤ hi') : Recorded lo hi' globals ms where
  set m hm a ha := ⟨(h.set m hm a ha).1, Nat.lt_of_lt_of_le (h.set m hm a ha).2 hle⟩
  once := h.once
  read m hm a ha := ⟨Nat.lt_of_lt_of_le (h.read m hm a ha).1 hle, (h.read m hm a ha).2⟩

/-- What is settled in the first part stays so in the second. -/
theorem append (h : Recorded lo mid globals ms) (h' : Recorded mid hi globals' ms')
    (hlo : lo ≤ mid) (hhi : mid ≤ hi) (hsame : globals.Same mid globals') :
    Recorded lo hi globals' (ms ++ ms') := by
  refine ⟨fun m hm a ha => ?_, List.pairwise_append.mpr ⟨h.once, h'.once, ?_⟩, fun m hm a ha => ?_⟩
  · obtain hm | hm := List.mem_append.mp hm
    · have := h.set m hm a ha
      omega
    · have := h'.set m hm a ha
      omega
  · intro m hm m' hm' a ha ha'
    have := h.set m hm a ha
    have := h'.set m' hm' a ha'
    omega
  · obtain hm | hm := List.mem_append.mp hm
    · obtain ⟨hlt, v, hv, hg⟩ := h.read m hm a ha
      exact ⟨by omega, v, hv, (hsame a hlt).trans hg⟩
    · exact h'.read m hm a ha

end Recorded

theorem Slots.Vacant.mono {n n' : Nat} {s : Slots} (h : s.Vacant n) (hn : n ≤ n') : s.Vacant n' :=
  fun i v hi hv => h i v (Nat.le_trans hn hi) hv

theorem Slots.Same.trans {n n' : Nat} {s s' s'' : Slots} (h : s.Same n s') (hn : n ≤ n')
    (h' : s'.Same n' s'') : s.Same n s'' :=
  fun i hi => (h' i (Nat.lt_of_lt_of_le hi hn)).trans (h i hi)

namespace Represents

variable {m m' : Machine} {c : Config} {n total : Nat}

/-- The next instruction is the first of what is left to execute. -/
theorem code_eq (hr : Represents m c) {i : Instruction} (hi : m.instruction? = some i)
    (hp : i.op.isPlain) : ∃ rest, c.current.code = .ins i :: rest := by
  have hf := hr.current.follows
  unfold Machine.instruction? at hi
  cases hcode : c.current.code with
  | nil =>
    rw [hcode] at hf
    rw [hf.eq_size] at hi
    obtain ⟨b, hb, -⟩ := Code.fetch?_eq_some hi
    exact absurd (Array.getElem?_eq_some_iff.mp hb).1 (Nat.lt_irrefl _)
  | cons p rest =>
    rw [hcode] at hf
    cases p with
    | ins j =>
      rw [hf.of_ins.1] at hi
      cases hi
      exact ⟨rest, rfl⟩
    | branch t e =>
      obtain ⟨target, hj, -⟩ := hf.of_branch
      rw [hj] at hi
      cases hi
      cases hp
    | skip =>
      obtain ⟨target, hj, -⟩ := hf.of_skip
      rw [hj] at hi
      cases hi
      cases hp

/-- A machine before a step that sets at most a global whose turn it is. -/
theorem recorded (hr : Represents m c) (ht : c.Typed fun _ => True) (hs : c.Settled n total)
    {n' : Nat} {globals : Slots} (hn : n ≤ n') (hset : ∀ a, m.Sets a → a < n')
    (hsame : m.globals.Same n globals) : Recorded n n' globals [m] := by
  refine ⟨?_, List.pairwise_singleton .., ?_⟩
  · rintro _ (_ | ⟨_, ⟨⟩⟩) a ha
    obtain ⟨rest, hcode⟩ := hr.code_eq ha rfl
    exact ⟨Nat.le_of_eq (hs.setGlobal_eq hcode).1.symm, hset a ha⟩
  · rintro _ (_ | ⟨_, ⟨⟩⟩) a ha
    obtain ⟨rest, hcode⟩ := hr.code_eq ha rfl
    have hlt := hs.getGlobal_lt hcode
    have hsize : a < c.globals.size := by
      obtain ⟨e, hcheck, -⟩ := ht.current.code
      rw [hcode] at hcheck
      generalize c.current.temps.length = height at hcheck
      rw [ht.globals.size]
      cases hcheck with
      | ins hu _ =>
        cases hu with
        | getGlobal ha => exact ha
    obtain ⟨v, hv⟩ := c.globals.exists_get? hsize
    rw [← hr.globals] at hv
    exact ⟨Nat.lt_of_lt_of_le hlt hn, v, hv, (hsame a hlt).trans hv⟩

/-- A step of a machine leaves settled what is settled. -/
theorem step_settles (hr : Represents m c) (ht : c.Typed fun _ => True) (hs : c.Settled n total)
    (hf : m.finished = false) :
    match MachineM.step m with
    | .ok _ m' => ∃ c' n', Represents m' c' ∧ (c'.Typed fun _ => True) ∧ c'.Settled n' total ∧
      c'.constants = c.constants ∧ n ≤ n' ∧ m.globals.Same n m'.globals ∧
      Recorded n n' m'.globals [m]
    | .error _ m' => m'.globals = m.globals := by
  have hcode : c.current.code ≠ [] := fun hcode => by
    rw [hr.finished_iff.mpr hcode] at hf
    cases hf
  obtain ⟨max, m', -, he, hr'⟩ | hcov := hr.step hcode
  · rw [he]
    exact hr'.globals.trans hr.globals.symm
  · have hstep := hs.step ht
    have hsafe := ht.step hcode (fun _ _ => trivial) (hr.mem_measures m.measures_true)
    have hkeeps := c.step_keeps
    cases hc : c.step with
    | stuck =>
      rw [hc] at hsafe
      exact absurd hsafe id
    | stop s c' =>
      rw [hc] at hcov hstep
      obtain ⟨m', he, hr'⟩ := hcov
      rw [he]
      exact hr'.globals.trans (Eq.trans hstep hr.globals.symm)
    | next c' =>
      rw [hc] at hcov hstep hsafe hkeeps
      obtain ⟨m', he, hr'⟩ := hcov
      obtain ⟨n', hn, hs', hsame, hset⟩ := hstep
      rw [he]
      have hsame' : m.globals.Same n m'.globals := by
        rw [hr.globals, hr'.globals]
        exact hsame
      refine ⟨c', n', hr', hsafe, hs', hkeeps.1, hn, hsame', ?_⟩
      refine hr.recorded ht hs hn (fun a ha => ?_) hsame'
      obtain ⟨rest, hcode⟩ := hr.code_eq ha rfl
      exact (hset a rest hcode).2

end Represents

/-- What a run leaves behind that starts where `n` globals have had their turn: by its end, all
globals up to `total` have. -/
structure Settles (pool : Array Value) (n total : Nat) (before after : Slots)
    (ms : List Machine) : Prop where
  recorded : Recorded n total after ms
  same : before.Same n after
  vacant : after.Vacant total
  made : after.Made (Prototype.Reads pool total)

theorem Config.Settled.settles {c : Config} {n total : Nat} (hs : c.Settled n total)
    {ms : List Machine} (hr : Recorded n total c.globals ms) :
    Settles c.constants n total c.globals c.globals ms where
  recorded := hr
  same _ _ := rfl
  vacant := hs.vacant.mono hs.inTurn.le
  made i v hv := (hs.made.globals i v hv).mono fun _ hp => hp.mono (.refl _) hs.inTurn.le

theorem Settles.cons {pool : Array Value} {n n' total : Nat} {before between after : Slots}
    {m : Machine} {ms : List Machine} (hm : Recorded n n' between [m])
    (hs : before.Same n between) (hn : n ≤ n') (hle : n' ≤ total)
    (h : Settles pool n' total between after ms) : Settles pool n total before after (m :: ms) where
  recorded := hm.append h.recorded hn hle h.same
  same := hs.trans hn h.same
  vacant := h.vacant
  made := h.made

/-- A run settles the globals of its program. -/
theorem Represents.run_settles {m m' : Machine} {c : Config} {n total : Nat}
    (hr : Represents m c) (ht : c.Typed fun _ => True) (hs : c.Settled n total) {fuel : Nat}
    {r : Except Failure Value} (h : m.run? fuel = some (r, m')) :
    Settles c.constants n total m.globals m'.globals (m.trail fuel) := by
  induction h using Machine.run?_induction generalizing c n with
  | @finished fuel m hf =>
    rw [Machine.trail_of_finished hf, hr.globals]
    exact hs.settles .nil
  | @stopped fuel m m₁ s hf he =>
    have hstep := hr.step_settles ht hs hf
    rw [he] at hstep
    rw [Machine.trail_of_stop hf he, hstep, hr.globals]
    refine hs.settles (hr.recorded ht hs hs.inTurn.le (fun a ha => ?_) ?_)
    · obtain ⟨rest, hcode⟩ := hr.code_eq ha rfl
      obtain ⟨rfl, hlt⟩ := hs.setGlobal_eq hcode
      exact hlt
    · intro i _
      rw [hr.globals]
  | next hn _ ih =>
    have hstep := hr.step_settles ht hs hn.1
    rw [hn.2] at hstep
    obtain ⟨c', n', hr', ht', hs', hconst, hle, hsame, hrec⟩ := hstep
    rw [hn.trail]
    exact (hconst ▸ ih hr' ht' hs').cons hrec hsame hle hs'.inTurn.le

namespace Session

/-- The machines that executing a program goes through. -/
def trail (fuel : Nat) (s : Session) (program : Node) : List Machine :=
  match s.compile program with
  | (.ok code, s₁) => (s₁.machine code).trail fuel
  | (.error _, _) => []

/-- A session in which programs were executed one after the other, and all machines on the way,
in their order. -/
inductive History : Session → List Machine → Prop
  | new (color tracing : Bool) (maxSteps : Option Int) : History { color, tracing, maxSteps } []
  | execute {s s' : Session} {ms : List Machine} {fuel : Nat} {program : Node}
    {r : Except SessionError Value} :
    History s ms → s.execute? fuel program = some (r, s') →
      History s' (ms ++ s.trail fuel program)

/-- All globals that names stand for have had their turn. -/
structure Settled (s : Session) (ms : List Machine) : Prop where
  sound : s.Sound fun _ => True
  numbered : s.names.Numbered
  recorded : Recorded 0 s.names.numDefinitions s.globals ms
  vacant : s.globals.Vacant s.names.numDefinitions
  made : s.globals.Made (Prototype.Reads s.constants s.names.numDefinitions)

variable {s s' s₁ : Session} {ms : List Machine} {program : Node} {code : Code}

/-- A program that is rejected settles no globals; if compilation breaks off, some have had their
turn. -/
theorem Settled.compile (hs : s.Settled ms) {r : Except CompileStop Code}
    (hc : s.compile program = (r, s')) : s'.Settled ms := by
  have hsound := hs.sound.compile hc
  obtain ⟨hk, he⟩ := compile_continues hc
  have hg : s'.globals = s.globals := by rw [he]
  have hle : s.names.numDefinitions ≤ s'.names.numDefinitions := hk.numDefinitions
  refine ⟨hsound, hk.numbered hs.numbered, ?_, ?_, ?_⟩ <;> rw [hg]
  · exact hs.recorded.mono hle
  · exact hs.vacant.mono hle
  · exact fun i v hv => (hs.made i v hv).mono fun _ hp => hp.mono hk.constants hle

theorem Settled.run (hs : s.Settled ms) (hc : s.compile program = (.ok code, s₁)) {fuel : Nat}
    {r : Except Failure Value} {m : Machine}
    (hr : (s₁.machine code).run? fuel = some (r, m)) :
    (s₁.after m).Settled (ms ++ (s₁.machine code).trail fuel) := by
  have hsound := hs.sound.after hc hr (fun _ _ => trivial) fun m _ => m.measures_true
  obtain ⟨line, statements, ps, d, rfl, ht, hf, rfl, rfl⟩ := compile_eq_ok.mp hc
  have horders := ht.orders ⟨⟨hs.sound.names, trivial⟩, trivial⟩ hs.numbered
  have hle := horders.ordered.le
  have hstart : (Config.start ps d.constants s.globals { maxSteps := s.maxSteps } s.tracing
      s.fresh).Settled s.names.numDefinitions d.env.global.numDefinitions := by
    refine ⟨⟨fun i v hv => ?_, .null, ⟨.null, List.forall_mem_nil _, List.forall_mem_nil _⟩,
      List.forall_mem_nil _⟩, ⟨⟨_, horders.ordered, Nat.le_refl _⟩, trivial⟩, hs.vacant⟩
    exact (hs.made i v hv).mono fun _ hp => hp.mono horders.pool (Nat.le_refl _)
  have hrun := (Represents.start hf ..).run_settles (hs.sound.start_typed ht hf ..) hstart hr
  exact ⟨hsound, horders.numbered, hs.recorded.append hrun.recorded (Nat.zero_le _) hle hrun.same,
    hrun.vacant, hrun.made⟩

theorem History.settled (h : History s ms) : s.Settled ms := by
  induction h with
  | new color tracing maxSteps =>
    have hnull : ∀ i v, Slots.get? { size := numGlobals } i = some v → v = .null :=
      fun i v hv => (Slots.get?_eq_some hv).2.symm
    refine ⟨⟨Table.shared_builtins, rfl, fun i v hv => ?_⟩, Table.numbered_builtins, .nil,
      fun i v _ hv => hnull i v hv, fun i v hv => ?_⟩
    · rw [hnull i v hv]
      exact .null
    · rw [hnull i v hv]
      exact .null
  | @execute s s' ms fuel program r _ he ih =>
    unfold trail
    match hc : s.compile program with
    | (.error e, s₁) =>
      rw [execute?, hc] at he
      cases he
      rw [List.append_nil]
      exact ih.compile hc
    | (.ok code, s₁) =>
      obtain ⟨r', m, hrun, -, rfl⟩ := (execute?_eq_some hc).mp he
      exact ih.run hc hrun

/-- Whatever programs a session executes, no global is set twice, those that no name has ever
stood for are `null`, and reading a global gives the same value at all times. -/
theorem History.single_assignment (h : History s ms) :
    (ms.Pairwise fun m m' => ∀ a, m.Sets a → ¬ m'.Sets a) ∧
    (∀ i v, s.names.numDefinitions ≤ i → s.globals.get? i = some v → v = .null) ∧
    ∀ a, ∃ v, ∀ m ∈ ms, m.Gets a → m.globals.get? a = some v := by
  have hs := h.settled
  refine ⟨hs.recorded.once, hs.vacant, fun a => ⟨(s.globals.get? a).getD .null, fun m hm ha => ?_⟩⟩
  obtain ⟨-, v, hv, hg⟩ := hs.recorded.read m hm a ha
  rw [hv, hg]
  rfl

/-- A name that is bound and read, and then bound again by another program. -/
theorem History.single_assignment_rebound :
    ∃ s ms, History s ms ∧ (∃ m ∈ ms, m.Sets 0) ∧ (∃ m ∈ ms, m.Gets 0) ∧
      (ms.Pairwise fun m m' => ¬ (m.Sets 0 ∧ m'.Sets 0)) ∧
      ∃ v, ∀ m ∈ ms, m.Gets 0 → m.globals.get? 0 = some v := by
  let first : Node := .program none
    [.letStmt none (.ident none "a") (.intLit none (.int 5)), .exprStmt none (.ident none "a")]
  let second : Node := .program none [.letStmt none (.ident none "a") (.intLit none (.int 6))]
  have hsome : ((execute? 4 {} first).bind fun r => execute? 2 r.2 second).isSome = true := by
    decide +kernel
  have hsets : (trail 4 {} first).any (fun m => m.Sets 0) = true := by decide +kernel
  have hgets : (trail 4 {} first).any (fun m => m.Gets 0) = true := by decide +kernel
  obtain ⟨⟨r', s'⟩, he⟩ := Option.isSome_iff_exists.mp hsome
  obtain ⟨⟨r, s⟩, he₁, he₂⟩ := Option.bind_eq_some_iff.mp he
  have h := History.execute (.execute (.new false false none) he₁) he₂
  obtain ⟨honce, -, hread⟩ := h.single_assignment
  obtain ⟨m, hm, hset⟩ := List.any_eq_true.mp hsets
  obtain ⟨m', hm', hget⟩ := List.any_eq_true.mp hgets
  exact ⟨s', _, h, ⟨m, List.mem_append_left _ (List.mem_append_right _ hm), of_decide_eq_true hset⟩,
    ⟨m', List.mem_append_left _ (List.mem_append_right _ hm'), of_decide_eq_true hget⟩,
    honce.imp fun hne hset => hne 0 hset.1 hset.2, hread 0⟩

end Session

end ClosureVM
