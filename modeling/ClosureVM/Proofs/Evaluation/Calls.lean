import ClosureVM.Proofs.Evaluation.Phrases

/-! Calls follow their evaluation, by induction on how deep they may be nested. -/
namespace ClosureVM

section

variable {α : Type} {pool : Array Value} {n : Nat} {final : Table}
  {call : Datum → List Datum → EvalM Datum} {env : Environment} {d d' : Draft}
  {ps rest : List Piece} {gs vs temps : List Value} {c : Config} {p : Progress}
  {post : List Value → Datum → List Value → Prop}

/-- A function follows its evaluation until it returns, unless it overflows. -/
def Leaves (pool : Array Value) (gs : List Value) (c : Config)
    (r : EStateM.Result Interrupt Progress Datum) : Prop :=
  c.Overflows ∨
    match r with
    | .ok d p | .error (.returned d) p => Returns pool gs c d p
    | .error (.stopped s) p => Fails pool gs c s p
    | .error .tooDeep _ | .error .meaningless _ => False

/-- A function that returns where its evaluation comes to an end. -/
theorem Simulates.leaves {r : EStateM.Result Interrupt Progress Datum}
    (h : Simulates pool n final env rest post gs c r) (hne : c.callers ≠ [])
    (hleave : ∀ (c' : Config) a p', r = .ok a p' → c'.current.code = rest → post gs a c'.current.temps →
      ∃ v, c'.step = c'.leave v ∧ Denotes pool gs a v) : Leaves pool gs c r := by
  obtain h | h := h
  · exact .inl h
  · refine .inr ?_
    match r with
    | .ok a p =>
      obtain ⟨gs', c', -, hs, hc, hk, hcode, hpost, ha⟩ := h
      obtain ⟨rfl, hl⟩ := hk hne
      obtain ⟨v, hstep, hd⟩ := hleave c' a p rfl hcode hpost
      exact ⟨hne, c', v, hs, hc, hl, hstep, hd, ha.slots, ha.written, ha.fresh⟩
    | .error (.returned d) p => exact h
    | .error (.stopped s) p => exact h
    | .error .tooDeep _ | .error .meaningless _ => exact h

/-- Statements as the body of a function. -/
theorem Phrase.Realized.asBody {statements : List Node}
    (h : (Phrase.stmts statements).Realized pool n final call d.env ps d'.env)
    (ht : Translates (.stmts statements) d ps d') (ha : Agrees pool n final d.env gs c p)
    (hcode : c.current.code = Piece.asBody ps) (hne : c.callers ≠ []) :
    Leaves pool gs c (evalStmts call true statements p) := by
  by_cases hp : Piece.EndsInPop ps
  · obtain ⟨qs, rfl⟩ := hp
    rw [Piece.asBody_concat_pop] at hcode
    refine (h.2 qs rfl _ gs c p ha hcode).leaves hne fun c' a p' _ hcode' hpost => ?_
    obtain ⟨v, ht, hd⟩ := hpost
    exact ⟨v, Config.step_returnValue hcode' ht, hd⟩
  · have hkeep : evalStmts call true statements = evalStmts call false statements :=
      ht.evalAs_keep rfl hp call
    rw [hkeep]
    by_cases hr : Piece.EndsInReturn ps
    · have hbody : Piece.asBody ps = ps ++ [] := by
        obtain ⟨qs, rfl⟩ := hr
        rw [Piece.asBody_concat_returnValue, List.append_nil]
      rw [hbody] at hcode
      refine (h.1 _ gs c p ha hcode).leaves hne fun c' a p' hok _ _ => ?_
      exact absurd hok (ht.evalAs_ne_ok rfl hr call false p p' a)
    · rw [Piece.asBody_of_not_ends hp hr] at hcode
      refine (h.1 _ gs c p ha hcode).leaves hne fun c' a p' _ hcode' hpost => ?_
      obtain ⟨-, rfl⟩ := hpost
      exact ⟨.null, Config.step_op hcode', .null⟩

/-- A builtin gives its result back at once. -/
theorem Simulates.callBuiltin {b : Builtin} {ds : List Datum} (ha : Agrees pool n final env gs c p)
    (hs : c.step = (c.withCode rest).callBuiltin b vs temps)
    (hds : List.Forall₂ (Denotes pool gs) ds vs) :
    Simulates pool n final env rest (Pushes pool temps) gs c (EvalM.callBuiltin b ds p) := by
  have heval : EvalM.callBuiltin b ds p =
      (EvalM.lift ((b.applyTo p.fresh ds).mapError .fault) >>= fun reply => do
        modify fun p => { p with written := p.written ++ reply.2 }
        return reply.1) { p with fresh := p.fresh + 1 } := rfl
  rw [heval]
  unfold Config.callBuiltin at hs
  have hfresh : p.fresh = (c.withCode rest).fresh := ha.fresh.symm
  obtain ⟨f, he', he⟩ | ⟨r, reply, he', he, hd, hw⟩ := (applyTo_same hds b p.fresh).cases
  · rw [hfresh] at he
    rw [he] at hs
    rw [he']
    exact .stop (ha.withCode rest).allocate hs rfl
  · rw [hfresh] at he
    rw [he] at hs
    rw [he']
    have ha' := (((ha.withCode rest).allocate).write r.2).withTemps temps
    dsimp only at hs
    rw [← hw] at hs
    exact .push ha' hs rfl rfl rfl rfl hd

/-- The caller goes on with what a function has returned. -/
theorem Returns.resume {c₁ : Config} {r : Datum} {p' : Progress} {callee : Value}
    (h : Returns pool gs c₁ r p') (ha : Agrees pool n final env gs c p) (hs : c.Next c₁)
    (hc : c₁.callers = (c.withCode rest).current.withTemps (callee :: temps) :: c.callers)
    (hl : c₁.lastPopped = c.lastPopped) :
    Simulates pool n final env rest (Pushes pool temps) gs c
      (.ok r { p' with scope := p.scope, result := p.result }) := by
  obtain ⟨-, c', v, hsteps, hc', hl', hstep, hd, hslots, hw, hf⟩ := h
  have hall : Relation.ReflTransGen Config.Next c c' := .head hs hsteps
  obtain ⟨hconst, hlimits, -⟩ := Config.keeps_of_steps hall
  rw [Config.leave, hc', hc] at hstep
  change c'.step = Config.push
    { c' with current := (c.withCode rest).current.withTemps temps, callers := c.callers } v at hstep
  have ha' : Agrees pool n final env gs
      { c' with current := (c.withCode rest).current.withTemps temps, callers := c.callers }
      { p' with scope := p.scope, result := p.result } :=
    { constants := hconst.trans ha.constants
      depth := hlimits ▸ ha.depth
      level := ha.level
      grows := ha.grows
      capacity := ha.capacity
      slots := hslots
      scope := ha.scope.of_eq rfl rfl
      self := ha.self
      room := ha.room
      count := ha.count
      base := ha.base
      bound := ha.bound
      result := fun hnil => (hl'.trans hl).symm ▸ ha.result hnil
      written := hw
      fresh := hf }
  rw [Config.push] at hstep
  split at hstep
  · exact .inl (.of_steps ⟨_, _, .stop hstep, .inl rfl⟩ hall)
  · exact .inr ⟨gs, _, List.prefix_rfl, hall.tail hstep, rfl, fun _ => ⟨rfl, hl'.trans hl⟩, rfl,
      ⟨v, rfl, hd⟩, ha'.withTemps _⟩

/-- A function that follows its evaluation, seen from its caller. -/
theorem Leaves.simulates {c₁ : Config} {scope : Bindings} {body : EvalM Datum} {callee : Value}
    (h : Leaves pool gs c₁ (body { p with scope })) (ha : Agrees pool n final env gs c p)
    (hs : c.Next c₁)
    (hc : c₁.callers = (c.withCode rest).current.withTemps (callee :: temps) :: c.callers)
    (hl : c₁.lastPopped = c.lastPopped) :
    Simulates pool n final env rest (Pushes pool temps) gs c (EvalM.within scope body p) := by
  obtain h | h := h
  · exact .inl (h.of_steps (.single hs))
  · rw [EvalM.within]
    match hr : body { p with scope } with
    | .ok d p' | .error (.returned d) p' =>
      rw [hr] at h
      exact Returns.resume h ha hs hc hl
    | .error (.stopped s) p' =>
      rw [hr] at h
      obtain ⟨gs', c', he, -, hk, hslots, hw, -⟩ := h
      obtain rfl := hk (by rw [hc]; exact List.cons_ne_nil _ _)
      exact .inr ⟨gs', c', .next hs he, List.prefix_rfl, fun _ => rfl, hslots, hw,
        fun hnil => have hn := ha.level.mp hnil; ⟨ha.length_le hn, ha.bound hn⟩⟩
    | .error .tooDeep _ | .error .meaningless _ =>
      rw [hr] at h
      exact absurd h id

/-- Inside a function that has just been entered. -/
theorem Agrees.enter {t inner : Table} {outer : List Table} {env' : Environment}
    {a : Activation} {id : Nat} {proto : Prototype} {free : List Value} {scope : Bindings}
    (h : Agrees pool (n + 1) final env gs c p) (hn : env'.nested = t :: outer)
    (hg : env'.current.Grows inner) (hself : a.self = .closure id proto free)
    (hlen : a.locals.length = inner.numDefinitions)
    (hnull : ∀ i v, t.numDefinitions ≤ i → a.locals[i]? = some v → v = .null)
    (hscope : Scoped pool gs env' inner a scope) (caller : Activation) :
    Agrees pool n inner env' gs { c with current := a, callers := caller :: c.callers }
      { p with scope } := by
  have hne : env'.nested ≠ [] := by
    rw [hn]
    exact List.cons_ne_nil _ _
  refine
    { constants := h.constants
      depth := ?_
      level := iff_of_false (List.cons_ne_nil _ _) hne
      grows := hg
      capacity := fun hnil => absurd hnil hne
      slots := h.slots
      scope := hscope
      self := fun _ => ⟨id, proto, free, hself⟩
      room := fun t' outer' hn' => ?_
      count := fun hnil => absurd hnil hne
      base := fun hnil => absurd hnil hne
      bound := fun hnil => absurd hnil hne
      result := nofun
      written := h.written
      fresh := h.fresh }
  · have := h.depth
    simp only [List.length_cons]
    omega
  · rw [hn] at hn'
    cases hn'
    exact ⟨hlen, hnull⟩

theorem Datum.call_closure (n id : Nat) (params : List Node) (body : Node) (name : Option String)
    (scope : Bindings) (ds : List Datum) :
    Datum.call n (.closure id params body name scope) ds =
      if (ds.length : Int) ≠ params.length then
        EvalM.stop (.fault (.arity params.length ds.length))
      else
        match n with
        | 0 => throw .tooDeep
        | m + 1 => EvalM.need (params.mapM Node.name?) >>= fun names =>
          EvalM.within (Datum.inner (.closure id params body name scope) name names ds scope)
            (evalBranch (Datum.call m) (some body)) := by
  cases n <;> rfl

/-- A call of a closure, given that the calls which it makes follow their evaluation. -/
theorem Simulates.callClosure {id : Nat} {params : List Node} {body : Node} {name : Option String}
    {scope : Bindings} {callee : Value} {ds : List Datum} (ha : Agrees pool n final env gs c p)
    (hcode : c.current.code = .op .call [vs.length] :: rest)
    (ht : c.current.temps = vs.reverse ++ callee :: temps)
    (hf : Denotes pool gs (.closure id params body name scope) callee)
    (hds : List.Forall₂ (Denotes pool gs) ds vs)
    (hcalls : ∀ m, n = m + 1 → CallsFollow pool m (Datum.call m)) :
    Simulates pool n final env rest (Pushes pool temps) gs c
      (Datum.call n (.closure id params body name scope) ds p) := by
  obtain ⟨d, d', proto, free, rfl, hcomp, hscope⟩ := hf.enter
  obtain ⟨names, statements, ps, hnames, hbody, htr, hfits, rfl⟩ := hcomp.code
  have hlen : ds.length = vs.length := hds.length_eq
  have hparams : params.length = names.length := Node.length_names hnames
  have hstep := Config.step_call hcode ht
  rw [Datum.call_closure, hlen]
  by_cases harity : (vs.length : Int) = params.length
  · rw [if_neg (not_not_intro harity)]
    have hnames' : names.length = vs.length := by omega
    obtain ⟨horderly, -⟩ := Draft.enter_orderly hcomp.orderly name names
    obtain ⟨t, henter, -, -, hnum⟩ := Draft.enter_closed hcomp.orderly.closed name names
    have hgrows := (htr.evolves horderly).2.grows
    have hroom : vs.length ≤ d'.env.current.numDefinitions := by
      have hle := hgrows.numDefinitions
      rw [Environment.current, henter] at hle
      change t.numDefinitions ≤ d'.env.current.numDefinitions at hle
      omega
    obtain ⟨s, hstop, ho⟩ | ⟨hframes, hnext⟩ :=
      @Config.enter_cases (c.withCode rest) (.closure id (.ofBody d' ps params name) free)
        (.ofBody d' ps params name) vs temps _ ⟨hfits, rfl⟩ harity (Int.ofNat_le.mpr hroom)
    · exact .inl ⟨s, _, .stop (hstep.trans hstop), ho⟩
    cases n with
    | zero => exact absurd ha.depth hframes
    | succ m =>
      have hs : Situated pool d'.env.current (d.enter name names) ps d' :=
        ⟨horderly, ⟨0, Piece.fits_asBody.mp hfits⟩, hcomp.pool, .refl _⟩
      have hbranch : evalBranch (Datum.call m) (some body) =
          evalStmts (Datum.call m) true statements := evalBranch_eq hbody
      rw [hnames]
      change Simulates _ _ _ _ _ _ _ _ (EvalM.within _ (evalBranch (Datum.call m) (some body)) p)
      rw [hbranch]
      refine Leaves.simulates ?_ ha (hstep.trans hnext) rfl rfl
      refine (htr.realized (hcalls m rfl) hs).asBody htr ?_ rfl (List.cons_ne_nil _ _)
      refine (ha.withCode rest).enter (congrArg Environment.nested henter) hgrows rfl ?_
        (fun i v hi hv => ?_)
        (hscope names ds vs _ (hnames'.trans hlen.symm) hds rfl fun i v hi => ?_) _
      · simp [Prototype.ofBody, hroom]
      · rw [List.getElem?_append_right (by omega), List.getElem?_replicate] at hv
        split at hv
        · exact (Option.some.inj hv).symm
        · cases hv
      · exact (List.getElem?_append_left (List.getElem?_eq_some_iff.mp hi).1).trans hi
  · have harity' : c.step = .stop (.fault (.arity params.length vs.length)) (c.withCode rest) :=
      hstep.trans (if_pos harity)
    rw [if_pos harity]
    exact .stop (ha.withCode rest) harity' rfl

/-- Calls follow their evaluation if those which they make do. -/
theorem CallsFollow.step (hcalls : ∀ m, n = m + 1 → CallsFollow pool m (Datum.call m)) :
    CallsFollow pool n (Datum.call n) := by
  intro final env rest gs c p f callee ds vs temps ha hcode ht hf hds
  have hstep := Config.step_call hcode ht
  cases f with
  | closure id params body name scope => exact .callClosure ha hcode ht hf hds hcalls
  | builtin b =>
    cases hf
    have heval : Datum.call n (.builtin b) ds = EvalM.callBuiltin b ds := by cases n <;> rfl
    rw [heval]
    exact .callBuiltin ha hstep hds
  | _ =>
    cases hf
    rw [Datum.call]
    · exact .stop (ha.withCode rest) hstep rfl
    all_goals nofun

theorem callsFollow (pool : Array Value) (n : Nat) : CallsFollow pool n (Datum.call n) := by
  induction n with
  | zero => exact .step nofun
  | succ n ih =>
    refine .step fun m hm => ?_
    cases hm
    exact ih

end

end ClosureVM
