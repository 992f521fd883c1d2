import ClosureVM.Proofs.Evaluation.Endings
import ClosureVM.Proofs.Evaluation.Steps

/-! Code that realizes an evaluation wherever it stands, put together construct by construct. -/
namespace ClosureVM

section

variable {α : Type} (pool : Array Value) (n : Nat) (final : Table)

/-- Wherever the code stands, its run follows the evaluation `x`, which leads from one environment
to another. What becomes of the stack is said by `post`. -/
def Realizes (post : List Value → List Value → α → List Value → Prop) (env : Environment)
    (ps : List Piece) (env' : Environment) (x : EvalM α) : Prop :=
  ∀ rest gs c p, Agrees pool n final env gs c p → c.current.code = ps ++ rest →
    Simulates pool n final env' rest (post c.current.temps) gs c (x p)

end

namespace EvalM

variable {α β γ : Type}

def both (x : EvalM α) (y : EvalM β) : EvalM (α × β) := do return (← x, ← y)

theorem both_bind (x : EvalM α) (y : EvalM β) (f : α × β → EvalM γ) :
    both x y >>= f = x >>= fun a => y >>= fun b => f (a, b) := by
  simp [both]

end EvalM

section

variable {α β : Type} {pool : Array Value} {n : Nat} {final : Table}
  {env env₁ env' : Environment} {ps qs rest : List Piece} {gs gs' temps temps' : List Value}
  {c : Config} {p : Progress} {d : Datum} {v : Value}
  {post : List Value → List Value → α → List Value → Prop}
  {post' : List Value → List Value → β → List Value → Prop}

theorem Pushes.mono (h : Pushes pool temps gs d temps') (hg : gs <+: gs') :
    Pushes pool temps gs' d temps' := by
  obtain ⟨v, ht, hd⟩ := h
  exact ⟨v, ht, hd.mono hg⟩

/-- Captured values are loaded one after the other. -/
theorem Agrees.loads {symbols : List Symbol} {position : Nat}
    (h : Agrees pool n final env gs c p) (hs : ∀ s ∈ symbols, KnownTo env.nested s)
    (hf : Piece.Fits position (symbols.map Symbol.load))
    (hcode : c.current.code = symbols.map Symbol.load ++ rest) :
    c.Overflows ∨ ∃ vs, Relation.ReflTransGen Config.Next c
        ((c.withCode rest).withTemps (vs.reverse ++ c.current.temps)) ∧
      List.Forall₂ (fun s v => ∃ d, p.scope.lookup s.name = some d ∧ Denotes pool gs d v)
        symbols vs := by
  induction symbols generalizing c position with
  | nil =>
    refine .inr ⟨[], ?_, .nil⟩
    cases hcode
    exact .refl
  | cons s symbols ih =>
    obtain ⟨hknown, hs⟩ := List.forall_mem_cons.mp hs
    rw [List.map_cons, ← List.singleton_append] at hf
    obtain ⟨hf, hfs⟩ := Piece.fits_append.mp hf
    obtain ⟨d, v, hd, hv, hden⟩ := h.scope.own s hknown
    have hstep := h.step_load hcode hf (fun _ => by
      obtain ⟨t, outer, hn, -⟩ := hknown
      rw [hn]
      exact List.cons_ne_nil _ _) hv
    rw [Config.push] at hstep
    split at hstep
    · exact .inl ⟨_, _, .stop hstep, .inl rfl⟩
    · obtain ho | ⟨vs, hsteps, hvs⟩ := ih ((h.withCode _).withTemps _) hs hfs rfl
      · exact .inl (ho.of_steps (.single hstep))
      · refine .inr ⟨v :: vs, .head hstep ?_, .cons ⟨d, hd, hden⟩ hvs⟩
        rw [List.reverse_cons, List.append_assoc]
        exact hsteps

namespace Realizes

theorem bind {x : EvalM α} {f : α → EvalM β} (hx : Realizes pool n final post env ps env₁ x)
    (hf : ∀ temps a rest gs c p, Agrees pool n final env₁ gs c p →
      c.current.code = qs ++ rest → post temps gs a c.current.temps →
      Simulates pool n final env' rest (post' temps) gs c (f a p)) :
    Realizes pool n final post' env (ps ++ qs) env' (x >>= f) := by
  intro rest gs c p ha hcode
  rw [List.append_assoc] at hcode
  exact (hx _ gs c p ha hcode).bind fun gs' c' a p' _ hcode' hpost ha' =>
    hf _ a rest gs' c' p' ha' hcode' hpost

/-- Two evaluations whose code follows one another; the first pushes a value. -/
theorem both {x : EvalM Datum} {y : EvalM β}
    (hx : Realizes pool n final (Pushes pool) env ps env₁ x)
    (hy : Realizes pool n final post' env₁ qs env' y) :
    Realizes pool n final (fun temps gs ab temps' =>
      ∃ v, Denotes pool gs ab.1 v ∧ post' (v :: temps) gs ab.2 temps') env (ps ++ qs) env'
      (EvalM.both x y) := by
  intro rest gs c p ha hcode
  rw [List.append_assoc] at hcode
  refine (hx _ gs c p ha hcode).bind fun gs₁ c₁ a p₁ _ hcode₁ hpost₁ ha₁ => ?_
  obtain ⟨v, ht, hd⟩ := hpost₁
  refine (hy rest gs₁ c₁ p₁ ha₁ hcode₁).bind fun gs₂ c₂ b p₂ hg₂ hcode₂ hpost₂ ha₂ => ?_
  exact .pure ha₂ hcode₂ ⟨v, hd.mono hg₂, ht ▸ hpost₂⟩

theorem constant {k : Nat} (hv : pool[k]? = some v) (hd : ∀ gs, Denotes pool gs d v) :
    Realizes pool n final (Pushes pool) env [.op .constant [k]] env (pure d) := by
  intro rest gs c p ha hcode
  have hs : c.step = (c.withCode rest).push v := by
    rw [Config.step_op hcode]
    change (c.withCode rest).pushFound c.constants[k]? = _
    rw [ha.constants, hv]
    rfl
  exact .push (ha.withCode rest) hs rfl rfl rfl rfl (hd gs)

theorem bool (b : Bool) :
    Realizes pool n final (Pushes pool) env [.op (if b then .pushTrue else .pushFalse)] env
      (pure (.bool b)) := by
  intro rest gs c p ha hcode
  have hs : c.step = (c.withCode rest).push (.bool b) := by
    rw [Config.step_op hcode]
    cases b <;> rfl
  exact .push (ha.withCode rest) hs rfl rfl rfl rfl (.bool b)

/-- A name is looked up where it has been resolved to. -/
theorem name {name : String} {s : Symbol} {position : Nat} (ho : env.Orderly)
    (hr : env.resolve? name = some (s, env')) (hg : env'.current.Grows final)
    (hf : Piece.Fits position [s.load]) :
    Realizes pool n final (Pushes pool) env [s.load] env'
      (do EvalM.need ((← get).scope.lookup name)) := by
  intro rest gs c p ha hcode
  obtain ⟨-, hc, hname, hfound⟩ := ho.resolve? hr
  obtain ⟨-, d, v, hd, hv, hden⟩ := ha.scope.resolve? ho hr hg
  have ha' := ha.captures hc hg
  have hself : s.storage = .self → env'.nested ≠ [] := by
    intro hself
    obtain ⟨-, hglobal⟩ | ⟨t, outer, hn, -⟩ := hfound
    · have hshared := (ho.closed.global s (Environment.find?_mem hglobal)).storage
      rw [hself] at hshared
      cases hshared
    · rw [hn]
      exact List.cons_ne_nil _ _
  have heval : (do EvalM.need ((← get).scope.lookup name) : EvalM Datum) p =
      (pure d : EvalM Datum) p := by
    change EvalM.need (p.scope.lookup name) p = _
    rw [hd]
    rfl
  rw [heval]
  exact .push (ha'.withCode rest) (ha'.step_load hcode hf hself hv) rfl rfl rfl rfl hden

/-- An operation on the value on top of the stack. -/
theorem unary {x : EvalM Datum} {op : String} {code : Opcode}
    (hop : unaryOpcode? op = some code)
    (hx : Realizes pool n final (Pushes pool) env ps env' x) :
    Realizes pool n final (Pushes pool) env (ps ++ [.op code]) env' (x >>= EvalM.unary op) := by
  refine hx.bind fun temps d rest gs c p ha hcode hpost => ?_
  obtain ⟨v, ht, hd⟩ := hpost
  have ha' := (ha.withCode rest).withTemps temps
  obtain ⟨f, hf, hsame⟩ := unaryOperator?_same hop
  have hunary : EvalM.unary op d = EvalM.lift (f d) := by
    rw [EvalM.unary, hf]
    rfl
  have hstep : c.step = ((c.withCode rest).withTemps temps).pushResult (v.unary code) := by
    unfold unaryOpcode? at hop
    split at hop <;> cases hop
    · exact Config.step_bang hcode ht
    · exact Config.step_minus hcode ht
  rw [hunary]
  exact .pushResult ha' hstep rfl rfl rfl rfl (hsame hd)

/-- An instruction that takes two values. -/
theorem binary {x y : EvalM Datum} {code : Opcode} {f : Value → Value → Except Stop Value}
    {f' : Datum → Datum → Except Stop Datum}
    (hcode : ∀ c : Config, c.execute code 0 0 = c.binary f)
    (hf : ∀ gs d e v w, Denotes pool gs d v → Denotes pool gs e w →
      SameResult (Denotes pool gs) (f' d e) (f v w))
    (hx : Realizes pool n final (Pushes pool) env ps env₁ x)
    (hy : Realizes pool n final (Pushes pool) env₁ qs env' y) :
    Realizes pool n final (Pushes pool) env (ps ++ qs ++ [.op code]) env'
      (x >>= fun d => y >>= fun e => EvalM.lift (f' d e)) := by
  rw [← EvalM.both_bind x y fun de => EvalM.lift (f' de.1 de.2)]
  refine (hx.both hy).bind fun temps de rest gs c p ha hcode' hpost => ?_
  obtain ⟨v, hd, w, ht, he⟩ := hpost
  have hs : c.step = ((c.withCode rest).withTemps temps).pushResult (f v w) := by
    rw [Config.step_op hcode']
    change (c.withCode rest).execute code 0 0 = _
    rw [hcode]
    exact Config.binary_eq (c := c.withCode rest) ht f
  exact .pushResult ((ha.withCode rest).withTemps temps) hs rfl rfl rfl rfl (hf gs _ _ v w hd he)

theorem noOperands :
    Realizes pool n final (PushesAll pool 0) env [] env (pure []) :=
  fun _ _ _ _ ha hcode => .pure ha hcode ⟨[], rfl, rfl, .nil⟩

/-- Operands one after the other. -/
theorem operands {x : EvalM Datum} {y : EvalM (List Datum)} {k : Nat}
    (hx : Realizes pool n final (Pushes pool) env ps env₁ x)
    (hy : Realizes pool n final (PushesAll pool k) env₁ qs env' y) :
    Realizes pool n final (PushesAll pool (k + 1)) env (ps ++ qs) env'
      (x >>= fun d => y >>= fun ds => pure (d :: ds)) := by
  rw [← EvalM.both_bind x y fun ds => pure (ds.1 :: ds.2), ← List.append_nil (ps ++ qs)]
  refine (hx.both hy).bind fun temps ds rest gs c p ha hcode hpost => ?_
  obtain ⟨v, hd, vs, rfl, ht, hds⟩ := hpost
  exact .pure ha hcode ⟨v :: vs, rfl, by rw [ht, List.reverse_cons, List.append_assoc]; rfl,
    .cons hd hds⟩

theorem noPairs :
    Realizes pool n final (fun temps gs ds => PushesAll pool 0 temps gs (Datum.flatten ds)) env []
      env (pure []) :=
  fun _ _ _ _ ha hcode => .pure ha hcode ⟨[], rfl, rfl, .nil⟩

/-- Keys and values in turn. -/
theorem pairs {x y : EvalM Datum} {z : EvalM (List (Datum × Datum))} {env₂ : Environment}
    {rs : List Piece} {k : Nat} (hx : Realizes pool n final (Pushes pool) env ps env₁ x)
    (hy : Realizes pool n final (Pushes pool) env₁ qs env₂ y)
    (hz : Realizes pool n final
      (fun temps gs ds => PushesAll pool k temps gs (Datum.flatten ds)) env₂ rs env' z) :
    Realizes pool n final (fun temps gs ds => PushesAll pool (k + 2) temps gs (Datum.flatten ds))
      env (ps ++ qs ++ rs) env'
      (x >>= fun key => y >>= fun d => z >>= fun ds => pure ((key, d) :: ds)) := by
  have heq : (x >>= fun key => y >>= fun d => z >>= fun ds => pure ((key, d) :: ds)) =
      EvalM.both x (EvalM.both y z) >>= fun ds => pure ((ds.1, ds.2.1) :: ds.2.2) := by
    simp [EvalM.both]
  rw [heq, List.append_assoc, ← List.append_nil (ps ++ _)]
  refine (hx.both (hy.both hz)).bind fun temps ds rest gs c p ha hcode hpost => ?_
  obtain ⟨v, hd, w, he, vs, rfl, ht, hds⟩ := hpost
  exact .pure ha hcode ⟨v :: w :: vs, rfl, by
    rw [ht, List.reverse_cons, List.reverse_cons, List.append_assoc, List.append_assoc]; rfl,
    .cons hd (.cons he hds)⟩

/-- The values on the stack become the elements of an array. -/
theorem array {x : EvalM (List Datum)} {k : Nat}
    (hx : Realizes pool n final (PushesAll pool k) env ps env' x) :
    Realizes pool n final (Pushes pool) env (ps ++ [.op .array [k]]) env'
      (x >>= fun ds => EvalM.identity >>= fun id => pure (.array id ds)) := by
  refine hx.bind fun temps ds rest gs c p ha hcode hpost => ?_
  obtain ⟨vs, rfl, ht, hds⟩ := hpost
  exact .pushNew ((ha.withCode rest).withTemps temps) (Config.step_array hcode ht) rfl rfl rfl rfl
    fun id => denotes_array.mpr ⟨vs, rfl, hds⟩

/-- The values on the stack become the keys and values of a hash. -/
theorem hash {x : EvalM (List (Datum × Datum))} {k : Nat}
    (hx : Realizes pool n final
      (fun temps gs ds => PushesAll pool (k * 2) temps gs (Datum.flatten ds)) env ps env' x) :
    Realizes pool n final (Pushes pool) env (ps ++ [.op .hash [k * 2]]) env'
      (x >>= fun ds => EvalM.lift ((Datum.entriesOf [] ds).mapError .fault) >>= fun entries =>
        EvalM.identity >>= fun id => pure (.hash id entries)) := by
  refine hx.bind fun temps ds rest gs c p ha hcode hpost => ?_
  obtain ⟨vs, hk, ht, hds⟩ := hpost
  have heven : vs.length % 2 = 0 := by omega
  rw [← hk] at hcode
  obtain ⟨f, he', he⟩ | ⟨entries', entries, he', he, hsame⟩ :=
    (entriesOf_same (.nil : SameEntries pool gs [] []) hds).cases
  · rw [he']
    exact .stop (ha.withCode rest) (Config.step_hash_error hcode ht heven he) rfl
  · rw [he']
    exact .pushNew ((ha.withCode rest).withTemps temps) (Config.step_hash hcode ht heven he) rfl rfl
      rfl rfl
      fun id => denotes_hash.mpr ⟨entries, rfl, hsame⟩

/-- A choice. The bindings of the branch that is not taken are passed over. -/
theorem choice {x y z : EvalM Datum} {env₂ : Environment} {ts es : List Piece}
    {names names' : List String} (hx : Realizes pool n final (Pushes pool) env ps env₁ x)
    (hy : Realizes pool n final (Pushes pool) env₁ ts env₂ y)
    (hz : Realizes pool n final (Pushes pool) env₂ es env' z)
    (hnames : env₁.Evolves names env₂) (hnames' : env₂.Evolves names' env')
    (hg : env'.current.Grows final) :
    Realizes pool n final (Pushes pool) env (ps ++ [.branch ts es]) env' (do
      if (← x).truthy then
        let d ← y
        EvalM.skip names'
        return d
      else
        EvalM.skip names
        z) := by
  refine hx.bind fun temps d rest gs c p ha hcode hpost => ?_
  obtain ⟨v, ht, hd⟩ := hpost
  have hs : c.step = .next ((c.withTemps temps).withCode
      (if v.truthy then ts ++ .skip :: rest else es ++ rest)) := by
    rw [Config.step, hcode]
    dsimp only [List.cons_append]
    rw [ht]
    rfl
  rw [hd.truthy_eq]
  cases htruthy : v.truthy with
  | true =>
    rw [htruthy] at hs
    refine Simulates.of_steps ?_ (.single hs) List.prefix_rfl rfl fun _ => ⟨rfl, rfl⟩
    refine (hy (.skip :: rest) gs _ p ((ha.withTemps temps).withCode _) rfl).bind
      fun gs₂ c₂ r p₂ _ hcode₂ hpost₂ ha₂ => ?_
    obtain ⟨gs₃, p₃, hskip, hg₃, hk₃, ha₃⟩ := ha₂.skip hnames' hg
    have hs₂ : c₂.step = .next (c₂.withCode rest) := by rw [Config.step, hcode₂]
    rw [EStateM.bind_ok hskip]
    exact .of_steps (.pure (ha₃.withCode rest) rfl (hpost₂.mono hg₃)) (.single hs₂) hg₃ rfl
      fun hne => ⟨hk₃ hne, rfl⟩
  | false =>
    rw [htruthy] at hs
    obtain ⟨gs₁, p₁, hskip, hg₁, hk₁, ha₁⟩ := ha.skip hnames (hnames'.grows.trans hg)
    refine Simulates.of_steps ?_ (.single hs) hg₁ rfl fun hne => ⟨hk₁ hne, rfl⟩
    change Simulates _ _ _ _ _ _ _ _ ((EvalM.skip names >>= fun _ => z) p)
    rw [EStateM.bind_ok hskip]
    exact hz rest gs₁ _ p₁ ((ha₁.withTemps temps).withCode _) rfl

/-- A function literal: what it captures is loaded, and becomes part of its closure. -/
theorem function {d d' : Draft} {params : List Node} {names : List String} {body : Node}
    {statements : List Node} {name : Option String} {position : Nat} (ho : d.env.Orderly)
    (hparams : params.mapM Node.name? = some names) (hbody : body.statements? = some statements)
    (h : Translates (.stmts statements) (d.enter name names) ps d')
    (hb : Piece.Fits 0 (Piece.asBody ps))
    (hf : Piece.Fits position (d'.env.current.free.map Symbol.load))
    (hp : Extends (d'.leave (.ofBody d' ps params name)).constants pool)
    (hg : d'.env.leave.current.Grows final) :
    Realizes pool n final (Pushes pool) d.env (d'.env.current.free.map Symbol.load ++
        [.op .closure [d'.constants.size, d'.env.current.free.length]]) d'.env.leave
      (EvalM.makeClosure params body name) := by
  intro rest gs c p ha hcode
  obtain ⟨ho₁, t, ht⟩ := Draft.enter_orderly ho name names
  obtain ⟨ho', he⟩ := h.evolves ho₁
  rw [ht] at he
  obtain ⟨hleave, hc⟩ := ho'.leave he
  have ha' := ha.captures hc hg
  have hknown : ∀ s ∈ d'.env.current.free, KnownTo d'.env.leave.nested s := by
    obtain ⟨-, t', outer', hn, -⟩ := he.outer rfl
    have hl := ho'.linked
    rw [hn] at hl
    rw [Environment.current, Environment.leave, hn]
    exact hl.1
  rw [List.append_assoc] at hcode
  obtain ho | ⟨vs, hsteps, hvs⟩ := ha'.loads hknown hf hcode
  · exact .inl ho
  have hpool : pool[d'.constants.size]? = some (.function (.ofBody d' ps params name)) :=
    hp.getElem? Array.getElem?_push_size
  have hs : ((c.withCode ([.op .closure [d'.constants.size, d'.env.current.free.length]] ++
        rest)).withTemps (vs.reverse ++ c.current.temps)).step =
      (c.withCode rest).pushNew (.closure · (.ofBody d' ps params name) vs) := by
    rw [hvs.length_eq]
    exact Config.step_closure rfl rfl ((congrArg (·[d'.constants.size]?) ha.constants).trans hpool)
  have hcomp : Compiled pool params body name d d' (.ofBody d' ps params name) :=
    ⟨ho, .trans (.push ..) hp, names, statements, ps, hparams, hbody, h, hb, rfl⟩
  refine .of_steps ?_ hsteps List.prefix_rfl rfl fun _ => ⟨rfl, rfl⟩
  exact .pushNew (ha'.withCode rest) hs rfl rfl rfl rfl (ha.scope.closure hcomp hvs)

/-- An expression statement whose value is dropped. -/
theorem dropped {x : EvalM Datum} (hx : Realizes pool n final (Pushes pool) env ps env' x) :
    Realizes pool n final Unchanged env (ps ++ [.op .pop]) env' (x >>= EvalM.drop) := by
  refine hx.bind fun temps d rest gs c p ha hcode hpost => ?_
  obtain ⟨v, ht, hd⟩ := hpost
  exact .drop ha hcode ht hd

/-- A binding of the value on top of the stack. -/
theorem bound {x : EvalM Datum} {name : String} {position : Nat} (ho : env'.Closed)
    (hg : (env'.define name).2.current.Grows final)
    (hf : Piece.Fits position [(env'.define name).1.store])
    (hx : Realizes pool n final (Pushes pool) env ps env' x) :
    Realizes pool n final Unchanged env (ps ++ [(env'.define name).1.store]) (env'.define name).2
      (do EvalM.bindName name (← x); return .null) := by
  refine hx.bind fun temps d rest gs c p ha hcode hpost => ?_
  obtain ⟨v, ht, hd⟩ := hpost
  refine (Simulates.store ha ho hg hf hcode ht hd).bind fun gs' c' _ p' _ hcode' ht' ha' => ?_
  exact .pure ha' hcode' ⟨ht', rfl⟩

/-- The value on top of the stack leaves the function. -/
theorem returned {x : EvalM Datum} (hn : env₁.nested ≠ [])
    (hx : Realizes pool n final (Pushes pool) env ps env₁ x) :
    Realizes pool n final post env (ps ++ [.op .returnValue]) env'
      (do throw (.returned (← x))) := by
  refine hx.bind fun temps d rest gs c p ha hcode hpost => ?_
  obtain ⟨v, ht, hd⟩ := hpost
  exact .inr ⟨mt ha.level.mp hn, c, v, .refl, rfl, rfl, Config.step_returnValue hcode ht, hd,
    ha.slots, ha.written, ha.fresh⟩

theorem andThen {x : EvalM Datum} {y : EvalM β}
    (hx : Realizes pool n final Unchanged env ps env₁ x)
    (hy : Realizes pool n final post' env₁ qs env' y) :
    Realizes pool n final post' env (ps ++ qs) env' (do discard x; y) := by
  have heq : (do discard x; y) = x >>= fun _ => y := by
    simp [discard, map_const]
  rw [heq]
  refine hx.bind fun temps _ rest gs c p ha hcode hpost => ?_
  rw [← hpost.1]
  exact hy rest gs c p ha hcode

theorem null : Realizes pool n final (Pushes pool) env [.op .pushNull] env (pure .null) := by
  intro rest gs c p ha hcode
  have hs : c.step = (c.withCode rest).push .null := Config.step_op hcode
  exact .push (ha.withCode rest) hs rfl rfl rfl rfl .null

end Realizes

end

end ClosureVM
