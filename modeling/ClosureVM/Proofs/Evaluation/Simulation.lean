import ClosureVM.Proofs.Effects
import ClosureVM.Proofs.Evaluation.Scope
import ClosureVM.Proofs.Machine.Recast

/-! What it means for a run to follow an evaluation, and how such runs are put together. -/
namespace ClosureVM

/-- The data bound by the program itself, in the order of their bindings. -/
def Progress.globals (p : Progress) : List Datum :=
  (p.scope.reverse.drop Builtin.all.length).map Prod.snd

/-- The lowest places hold the given values, and all others `null`. -/
structure Slots.Starts (s : Slots) (values : List Value) : Prop where
  size : s.size = numGlobals
  get? : ∀ i v, s.get? i = some v → v = values[i]?.getD .null

/-- A configuration agrees with the state of an evaluation, where the scopes are `env` and the
table of the function at work will be `final`. There is room for `n` further calls at most. -/
structure Agrees (pool : Array Value) (n : Nat) (final : Table) (env : Environment)
    (gs : List Value) (c : Config) (p : Progress) : Prop where
  constants : c.constants = pool
  depth : c.limits.maxFrames ≤ c.callers.length + 1 + n
  level : c.callers = [] ↔ env.nested = []
  grows : env.current.Grows final
  capacity : env.nested = [] → final.numDefinitions ≤ numGlobals
  slots : c.globals.Starts gs
  scope : Scoped pool gs env final c.current p.scope
  self : env.nested ≠ [] → ∃ id proto free, c.current.self = .closure id proto free
  room : ∀ t outer, env.nested = t :: outer → c.current.locals.length = final.numDefinitions ∧
    ∀ i v, t.numDefinitions ≤ i → c.current.locals[i]? = some v → v = .null
  count : env.nested = [] → env.global.numDefinitions = gs.length
  base : env.nested = [] → Builtin.all.length ≤ p.scope.length
  bound : env.nested = [] → List.Forall₂ (Denotes pool gs) p.globals gs
  result : c.callers = [] → Denotes pool gs p.result c.lastPopped
  written : c.written = p.written
  fresh : c.fresh = p.fresh

/-- There are places for all globals. -/
theorem Agrees.length_le {pool : Array Value} {n : Nat} {final : Table} {env : Environment}
    {gs : List Value} {c : Config} {p : Progress} (h : Agrees pool n final env gs c p)
    (hn : env.nested = []) : gs.length ≤ numGlobals := by
  have hg := h.grows.numDefinitions
  rw [Environment.current, hn] at hg
  exact Nat.le_trans (h.count hn ▸ hg) (h.capacity hn)

/-- The run ends because the stack or the calls outgrow their limits. -/
def Config.Overflows (c : Config) : Prop :=
  ∃ s c', c.Ends (.error s) c' ∧ s.IsOverflow c.limits.maxFrames

section

variable {α β : Type} (pool : Array Value) (n : Nat) (final : Table) (env : Environment)
  (rest : List Piece) (post : List Value → α → List Value → Prop)

/-- From `c`, where the values `gs` are bound, a run follows an evaluation that gives a result. It
comes to the code `rest`, with a stack as `post` says. -/
def Arrives (gs : List Value) (c : Config) (a : α) (p : Progress) : Prop :=
  ∃ gs' c', gs <+: gs' ∧ Relation.ReflTransGen Config.Next c c' ∧ c'.callers = c.callers ∧
    (c.callers ≠ [] → gs' = gs ∧ c'.lastPopped = c.lastPopped) ∧ c'.current.code = rest ∧
    post gs' a c'.current.temps ∧ Agrees pool n final env gs' c' p

/-- A run follows an evaluation that leaves its function with the datum `d`. -/
def Returns (gs : List Value) (c : Config) (d : Datum) (p : Progress) : Prop :=
  c.callers ≠ [] ∧ ∃ c' v, Relation.ReflTransGen Config.Next c c' ∧ c'.callers = c.callers ∧
    c'.lastPopped = c.lastPopped ∧ c'.step = c'.leave v ∧ Denotes pool gs d v ∧
    c'.globals.Starts gs ∧ c'.written = p.written ∧ c'.fresh = p.fresh

/-- A run follows an evaluation that fails. -/
def Fails (gs : List Value) (c : Config) (s : Stop) (p : Progress) : Prop :=
  ∃ gs' c', c.Ends (.error s) c' ∧ gs <+: gs' ∧ (c.callers ≠ [] → gs' = gs) ∧
    c'.globals.Starts gs' ∧ c'.written = p.written ∧
    (c.callers = [] → gs'.length ≤ numGlobals ∧ List.Forall₂ (Denotes pool gs') p.globals gs')

/-- A run follows an evaluation, unless it overflows. -/
def Simulates (gs : List Value) (c : Config) (r : EStateM.Result Interrupt Progress α) : Prop :=
  c.Overflows ∨
    match r with
    | .ok a p => Arrives pool n final env rest post gs c a p
    | .error (.returned d) p => Returns pool gs c d p
    | .error (.stopped s) p => Fails pool gs c s p
    | .error .tooDeep _ | .error .meaningless _ => False

end

section

variable {α β : Type} {pool : Array Value} {n : Nat} {final : Table} {env env' : Environment}
  {rest rest' : List Piece} {post : List Value → α → List Value → Prop}
  {post' : List Value → β → List Value → Prop} {gs gs' : List Value} {c c' : Config}
  {p : Progress}

theorem Config.Overflows.of_steps (h : c'.Overflows)
    (hs : Relation.ReflTransGen Config.Next c c') : c.Overflows := by
  obtain ⟨s, c'', he, ho⟩ := h
  exact ⟨s, c'', .of_steps hs he, (Config.keeps_of_steps hs).2.1 ▸ ho⟩

/-- Steps to begin with. -/
theorem Simulates.of_steps {r : EStateM.Result Interrupt Progress α}
    (h : Simulates pool n final env rest post gs' c' r)
    (hs : Relation.ReflTransGen Config.Next c c') (hg : gs <+: gs') (hc : c'.callers = c.callers)
    (hk : c.callers ≠ [] → gs' = gs ∧ c'.lastPopped = c.lastPopped) :
    Simulates pool n final env rest post gs c r := by
  obtain h | h := h
  · exact .inl (h.of_steps hs)
  · refine .inr ?_
    match r with
    | .ok a p =>
      obtain ⟨gs'', c'', hg', hs', hc', hk', hrest⟩ := h
      refine ⟨gs'', c'', hg.trans hg', hs.trans hs', hc'.trans hc, fun hne => ?_, hrest⟩
      obtain ⟨h₁, h₂⟩ := hk hne
      obtain ⟨h₃, h₄⟩ := hk' (hc ▸ hne)
      exact ⟨h₃.trans h₁, h₄.trans h₂⟩
    | .error (.returned d) p =>
      obtain ⟨hne, c'', v, hs', hc', hl, hrest⟩ := h
      rw [hc] at hne
      obtain ⟨rfl, hl'⟩ := hk hne
      exact ⟨hne, c'', v, hs.trans hs', hc'.trans hc, hl.trans hl', hrest⟩
    | .error (.stopped s) p =>
      obtain ⟨gs'', c'', he, hg', hk', h₁, h₂, h₃⟩ := h
      exact ⟨gs'', c'', .of_steps hs he, hg.trans hg',
        fun hne => (hk' (hc ▸ hne)).trans (hk hne).1, h₁, h₂, fun hnil => h₃ (hc.trans hnil)⟩
    | .error .tooDeep _ | .error .meaningless _ => exact h

/-- One evaluation after another. -/
theorem Simulates.bind {x : EvalM α} {f : α → EvalM β}
    (hx : Simulates pool n final env rest post gs c (x p))
    (hf : ∀ gs' c' a p', gs <+: gs' → c'.current.code = rest → post gs' a c'.current.temps →
      Agrees pool n final env gs' c' p' →
      Simulates pool n final env' rest' post' gs' c' (f a p')) :
    Simulates pool n final env' rest' post' gs c ((x >>= f) p) := by
  rw [EStateM.bind_apply]
  obtain hx | hx := hx
  · exact .inl hx
  · cases hr : x p with
    | ok a p' =>
      rw [hr] at hx
      obtain ⟨gs', c', hg, hs, hc, hk, hcode, hpost, ha⟩ := hx
      exact (hf gs' c' a p' hg hcode hpost ha).of_steps hs hg hc hk
    | error e p' =>
      rw [hr] at hx
      cases e <;> exact .inr hx

theorem Simulates.pure {a : α} (ha : Agrees pool n final env gs c p) (hcode : c.current.code = rest)
    (hpost : post gs a c.current.temps) :
    Simulates pool n final env rest post gs c ((pure a : EvalM α) p) :=
  .inr ⟨gs, c, List.prefix_rfl, .refl, rfl, fun _ => ⟨rfl, rfl⟩, hcode, hpost, ha⟩

end

end ClosureVM
