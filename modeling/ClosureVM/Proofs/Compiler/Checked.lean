import ClosureVM.Proofs.Code.Checking
import ClosureVM.Proofs.Compiler.Functions
import ClosureVM.Proofs.Symbol.Scopes

/-! The code of a program is checked: it keeps to its stack and refers to what exists. -/
namespace ClosureVM

/-- How many values a phrase leaves on the stack. -/
def Phrase.leaves : Phrase → Nat
  | .stmt _ | .stmts _ => 0
  | .expr _ => 1
  | .exprs nodes => nodes.length
  | .pairs ps => ps.length * 2

/-- What the code in an environment can refer to. -/
def Environment.shape (env : Environment) : Shape :=
  match env.nested with
  | [] => ⟨0, 0, false⟩
  | t :: _ => ⟨t.numDefinitions, t.free.length, true⟩

theorem Environment.Grows.shape {env env' : Environment} (h : env.Grows env') :
    env.shape.Grows env'.shape := by
  unfold Environment.shape
  unfold Environment.Grows at h
  cases hn : env.nested with
  | nil =>
    rw [hn] at h
    rw [List.forall₂_nil_left_iff.mp h]
    exact ⟨Nat.le_refl _, Nat.le_refl _, rfl⟩
  | cons t outer =>
    rw [hn] at h
    obtain ⟨t', outer', ht, -, hn'⟩ := List.forall₂_cons_left_iff.mp h
    rw [hn']
    exact ⟨ht.numDefinitions, ht.free.length_le, rfl⟩

theorem Node.length_names {params : List Node} {names : List String}
    (h : params.mapM Node.name? = some names) : params.length = names.length := by
  induction params generalizing names with
  | nil =>
    cases h
    rfl
  | cons param params ih =>
    rw [List.mapM_cons, Option.bind_eq_bind, Option.bind_eq_some_iff] at h
    obtain ⟨name, -, h⟩ := h
    obtain ⟨rest, hrest, ⟨⟩⟩ := Option.bind_eq_some_iff.mp h
    rw [List.length_cons, List.length_cons, ih hrest]

theorem Environment.Grows.inFunction {env env' : Environment} (h : env.Grows env')
    (hn : env.nested ≠ []) : env'.shape.inFunction = true := by
  rw [← h.shape.inFunction, Environment.shape]
  cases he : env.nested with
  | nil => exact absurd he hn
  | cons t outer => rfl

theorem isUnary_of_unaryOpcode? {op : String} {code : Opcode} (h : unaryOpcode? op = some code) :
    code.isUnary := by
  unfold unaryOpcode? at h
  split at h <;> cases h <;> rfl

theorem isBinary_of_binaryOpcode? {op : String} {code : Opcode}
    (h : binaryOpcode? op = some code) : code.isBinary := by
  unfold binaryOpcode? at h
  split at h <;> cases h <;> rfl

namespace Piece

variable {pool : Array Value} {sh : Shape} {h : Nat} {ps : List Piece}

theorem Checked.height_pop {h' : Nat} (hc : Checked pool sh h' [.op .pop] h) : h' = h + 1 := by
  cases hc with
  | ins hu hr =>
    rw [← hr.height_nil]
    cases hu with
    | pop => rfl
    | binary hb | unary hb | nullary hb => cases hb

theorem Checked.asBranch (hc : Checked pool sh h ps h) :
    Checked pool sh h (asBranch ps) (h + 1) := by
  by_cases hp : EndsInPop ps
  · obtain ⟨qs, rfl⟩ := hp
    rw [asBranch_concat_pop]
    obtain ⟨h', hq, hpop⟩ := hc.of_append
    rwa [hpop.height_pop] at hq
  · rw [asBranch_of_not_endsInPop hp]
    exact hc.snoc (.nullary rfl)

theorem returns_concat (ps : List Piece) {p : Piece} (hp : p.IsReturn) : Returns (ps ++ [p]) :=
  ⟨p, List.getLast?_concat, hp⟩

theorem Checked.asBody (hc : Checked pool sh h ps h) (hf : sh.inFunction = true) :
    Returns (asBody ps) ∧ Checked pool sh h (asBody ps) h := by
  by_cases hp : EndsInPop ps
  · obtain ⟨qs, rfl⟩ := hp
    rw [asBody_concat_pop]
    obtain ⟨h', hq, hpop⟩ := hc.of_append
    rw [hpop.height_pop] at hq
    exact ⟨returns_concat qs (.inl rfl), hq.snoc (.returnValue hf)⟩
  · by_cases hr : EndsInReturn ps
    · obtain ⟨qs, rfl⟩ := hr
      rw [asBody_concat_returnValue]
      exact ⟨returns_concat qs (.inl rfl), hc⟩
    · rw [asBody_of_not_ends hp hr]
      exact ⟨returns_concat ps (.inr rfl), hc.snoc (.returnNull hf)⟩

end Piece

namespace Environment

variable {env : Environment} {pool : Array Value}

/-- Loading a symbol in scope is checked, if its index can be written. -/
theorem Sees.checked_load {s : Symbol} (hs : env.Sees s) {position : Nat}
    (hf : Piece.Fits position [s.load]) (h : Nat) :
    Piece.Checked pool env.shape h [s.load] (h + 1) := by
  have hins : ∀ {i : Instruction}, i.Uses pool env.shape 0 1 →
      Piece.Checked pool env.shape h [.ins i] (h + 1) := fun hu => .ins hu .nil
  unfold Symbol.load at hf ⊢
  obtain hs | hs := hs
  · unfold Symbol.IsShared at hs
    cases hst : s.storage with
    | global =>
      rw [hst] at hf
      refine hins (.getGlobal ?_)
      cases hf.1.2 with
      | cons hn _ => exact hn
    | builtin =>
      rw [hst] at hs
      obtain ⟨i, hi, hl⟩ := hs
      exact hins (.getBuiltin (by rw [hi]; exact hl))
    | frame | free | self =>
      rw [hst] at hs
      exact absurd hs id
  · unfold Environment.shape
    cases hn : env.nested with
    | nil =>
      rw [hn] at hs
      exact absurd hs id
    | cons t outer =>
      rw [hn] at hs
      change t.Holds s at hs
      unfold Table.Holds at hs
      cases hst : s.storage with
      | frame =>
        rw [hst] at hs
        obtain ⟨i, hi, hl⟩ := hs
        exact .ins (.getLocal (by rw [hi]; exact hl)) .nil
      | free =>
        rw [hst] at hs
        obtain ⟨i, hi, hl⟩ := hs
        exact .ins (.getFree (by rw [hi]; exact hl)) .nil
      | self => exact .ins (.currentClosure rfl) .nil
      | global | builtin =>
        rw [hst] at hs
        exact absurd hs id

private theorem checked_loads {symbols : List Symbol} (hs : ∀ s ∈ symbols, env.Sees s)
    {position : Nat}
    (hf : Piece.Fits position (symbols.map Symbol.load)) (h : Nat) :
    Piece.Checked pool env.shape h (symbols.map Symbol.load) (h + symbols.length) := by
  induction symbols generalizing position h with
  | nil => exact .nil
  | cons s rest ih =>
    rw [List.map_cons, ← List.singleton_append] at hf ⊢
    obtain ⟨hf₁, hf₂⟩ := Piece.fits_append.mp hf
    have hfirst : Piece.Checked pool env.shape h [s.load] (h + 1) :=
      (hs s List.mem_cons_self).checked_load hf₁ h
    have hrest := ih (fun s hs' => hs s (List.mem_cons_of_mem _ hs')) hf₂ (h + 1)
    rw [List.length_cons, Nat.add_comm rest.length, ← Nat.add_assoc]
    exact hfirst.append hrest

/-- Storing into a symbol that has just been defined is checked, if its index can be written. -/
theorem uses_store (env : Environment) (pool : Array Value) (name : String) {position : Nat}
    (hf : Piece.Fits position [(env.define name).1.store]) :
    ∃ i, (env.define name).1.store = .ins i ∧ i.Uses pool (env.define name).2.shape 1 0 := by
  unfold Environment.define at hf ⊢
  cases hn : env.nested with
  | nil =>
    rw [hn] at hf
    refine ⟨_, rfl, .setGlobal ?_⟩
    cases hf.1.2 with
    | cons hlt _ => exact hlt
  | cons t outer => exact ⟨_, rfl, .setLocal (Nat.lt_succ_self _)⟩

end Environment

/-- Code that leads from one draft to another: scopes stay closed and only grow, and it is
checked against what it leaves behind. -/
structure Draft.Leads (d : Draft) (n : Nat) (ps : List Piece) (d' : Draft) : Prop where
  closed : d'.env.Closed
  grows : d.env.Grows d'.env
  pool : Extends d.constants d'.constants
  checked (h : Nat) : Piece.Checked d'.constants d'.env.shape h ps (h + n)

namespace Draft

variable {d d' d'' : Draft} {n k : Nat} {ps qs : List Piece}

theorem Leads.nil (hc : d'.env.Closed) (hg : d.env.Grows d'.env)
    (hp : Extends d.constants d'.constants) : d.Leads 0 [] d' := ⟨hc, hg, hp, fun _ => .nil⟩

theorem Leads.append (h : d.Leads n ps d') (h' : d'.Leads k qs d'') :
    d.Leads (n + k) (ps ++ qs) d'' where
  closed := h'.closed
  grows := h.grows.trans h'.grows
  pool := h.pool.trans h'.pool
  checked b := by
    rw [← Nat.add_assoc]
    exact ((h.checked b).mono h'.pool h'.grows.shape).append (h'.checked (b + n))

theorem Leads.snoc {i : Instruction} {pops pushes : Nat} (h : d.Leads k ps d')
    (hu : i.Uses d'.constants d'.env.shape pops pushes) (hk : k = n + pops) :
    d.Leads (n + pushes) (ps ++ [.ins i]) d' where
  closed := h.closed
  grows := h.grows
  pool := h.pool
  checked b := by
    have hc := h.checked b
    rw [hk, ← Nat.add_assoc] at hc
    rw [← Nat.add_assoc]
    exact hc.snoc hu

theorem Leads.literal (hc : d.env.Closed) {v : Value} (hv : v.IsLiteral) :
    d.Leads 1 [.op .constant [d.constants.size]] (d.addConstant v) where
  closed := hc
  grows := .refl _
  pool := .push ..
  checked _ := .ins (.constant Array.getElem?_push_size hv) .nil

/-- A choice takes its condition and leaves what one of its branches leaves. -/
theorem Leads.branch {d₁ d₂ : Draft} {ts es : List Piece} (h : d.Leads 1 ps d₁)
    (ht : d₁.Leads 0 ts d₂) (he : d₂.Leads 0 es d') :
    d.Leads 1 (ps ++ [.branch (Piece.asBranch ts) (Piece.asBranch es)]) d' where
  closed := he.closed
  grows := h.grows.trans (ht.grows.trans he.grows)
  pool := h.pool.trans (ht.pool.trans he.pool)
  checked b := by
    have hc := (h.checked b).mono (ht.pool.trans he.pool) (ht.grows.trans he.grows).shape
    have ht' := ((ht.checked b).mono he.pool he.grows.shape).asBranch
    exact hc.append (.branch ht' (he.checked b).asBranch .nil)

/-- A function's scope starts with its parameters and no captures. -/
theorem enter_closed (hc : d.env.Closed) (name : Option String) (params : List String) :
    ∃ t, (d.enter name params).env = { d.env with nested := t :: d.env.nested } ∧ t.Closed ∧
      t.free = [] ∧ t.numDefinitions = params.length := by
  have hopen {t : Table} (ht : t.Closed) (hf : t.free = []) (hn : t.numDefinitions = 0)
      {env : Environment} (he : env = { d.env with nested := t :: d.env.nested }) :
      ∃ t, params.foldl (fun env param => (env.define param).2) env =
          { d.env with nested := t :: d.env.nested } ∧ t.Closed ∧
        t.free = [] ∧ t.numDefinitions = params.length := by
    subst he
    have henv : Environment.Closed { d.env with nested := t :: d.env.nested } :=
      ⟨hc.global, ht, by simp [hf], hc.nested⟩
    obtain ⟨t', he, ht', hf', hn'⟩ := henv.foldl_define params rfl
    exact ⟨t', he, ht', hf'.trans hf, by rw [hn', hn, Nat.zero_add]⟩
  have hempty : Table.Closed {} := by simp [Table.Closed]
  unfold Draft.enter
  cases given? name with
  | none => exact hopen hempty rfl rfl rfl
  | some name => exact hopen (hempty.defineFunctionName name).1 rfl rfl rfl

/-- The function of a literal is checked for what it captures. -/
theorem Leads.sound {params : List Node} {names : List String} {name : Option String}
    (hc : d.env.Closed) (hparams : params.mapM Node.name? = some names)
    (h : (d.enter name names).Leads 0 ps d') (hb : Piece.Fits 0 (Piece.asBody ps)) :
    (Prototype.ofBody d' ps params name).Sound d'.constants d'.env.current.free.length := by
  obtain ⟨t, henter, -, -, hnum⟩ := enter_closed hc name names
  have hg := h.grows
  rw [Environment.Grows, henter] at hg
  obtain ⟨t', outer, ht, houter, hn⟩ := List.forall₂_cons_left_iff.mp hg
  have hcur : d'.env.current = t' := by rw [Environment.current, hn]; rfl
  have hshape : d'.env.shape = ⟨t'.numDefinitions, t'.free.length, true⟩ := by
    rw [Environment.shape, hn]
  have hlen : params.length = names.length := Node.length_names hparams
  obtain ⟨hret, hbody⟩ := (h.checked 0).asBody (by rw [hshape])
  refine ⟨Piece.asBody ps, 0, ⟨hb, rfl⟩, hret, Int.natCast_nonneg _, ?_, ?_⟩
  · simp only [Prototype.ofBody, hcur]
    have := ht.numDefinitions
    omega
  · simp only [Prototype.ofBody, hcur, Int.toNat_natCast]
    exact hshape ▸ hbody

/-- Behind a function literal there is its closure, and what the function captures is loaded from
the scope around it. -/
theorem Leads.function {params : List Node} {names : List String} {name : Option String}
    {position : Nat} (hc : d.env.Closed) (hparams : params.mapM Node.name? = some names)
    (h : (d.enter name names).Leads 0 ps d') (hb : Piece.Fits 0 (Piece.asBody ps))
    (hf : Piece.Fits position (d'.env.current.free.map Symbol.load)) :
    d.Leads 1 (d'.env.current.free.map Symbol.load ++
        [.op .closure [d'.constants.size, d'.env.current.free.length]])
      (d'.leave (.ofBody d' ps params name)) := by
  obtain ⟨t, henter, -, -, hnum⟩ := enter_closed hc name names
  have hg := h.grows
  rw [Environment.Grows, henter] at hg
  obtain ⟨t', outer, ht, houter, hn⟩ := List.forall₂_cons_left_iff.mp hg
  have hcur : d'.env.current = t' := by rw [Environment.current, hn]; rfl
  have hleave : d'.env.leave.nested = outer := by rw [Environment.leave, hn]; rfl
  obtain ⟨-, hheld, hclosed⟩ : TablesClosed (t' :: outer) := hn ▸ h.closed.nested
  have hpool : Extends (d.enter name names).constants d'.constants := h.pool
  obtain ⟨body, e, hhas, hret, hnonneg, hle, hbody⟩ := h.sound hc hparams hb
  refine ⟨⟨h.closed.global, hleave ▸ hclosed⟩, ?_, hpool.trans (.push ..), fun b => ?_⟩
  · rw [Environment.Grows]
    exact hleave ▸ houter
  · have hsees : ∀ s ∈ t'.free, d'.env.leave.Sees s := fun s hs => .inr (hleave ▸ hheld s hs)
    rw [hcur] at hf hbody ⊢
    exact (Environment.checked_loads hsees hf b).append (.closure Array.getElem?_push_size hhas
      hret hnonneg hle (hbody.mono (.push ..) ⟨Nat.le_refl _, Nat.le_refl _, rfl⟩) .nil)

end Draft

/-- The code of a phrase is checked. -/
theorem Translates.leads {phrase : Phrase} {d d' : Draft} {ps : List Piece} {position : Nat}
    (h : Translates phrase d ps d') (hc : d.env.Closed) (hf : Piece.Fits position ps) :
    d.Leads phrase.leaves ps d' := by
  induction h generalizing position with
  | exprStmt _ ih =>
    rw [Piece.fits_append] at hf
    exact (ih hc hf.1).snoc .pop rfl
  | @letStmt _ _ _ name _ d' _ _ _ ih =>
    rw [Piece.fits_append] at hf
    have hv := ih hc hf.1
    obtain ⟨i, hi, hu⟩ := d'.env.uses_store d'.constants name hf.2
    obtain ⟨hc', hg⟩ := hv.closed.define name
    rw [hi]
    have hdef := hv.append (@Draft.Leads.nil d' (d'.define name) hc' hg (.refl _))
    rw [List.append_nil] at hdef
    exact hdef.snoc hu rfl
  | returnNull hn =>
    have hr := (Environment.Grows.refl _).inFunction hn
    exact ⟨hc, .refl _, .refl _, fun b => .ins (.nullary rfl) (.ins (.returnValue hr) .nil)⟩
  | returnValue hn _ ih =>
    rw [Piece.fits_append] at hf
    have hv := ih hc hf.1
    exact hv.snoc (.returnValue (hv.grows.inFunction hn)) rfl
  | block _ ih => exact ih hc hf
  | noStmts | noExprs | noPairs => exact .nil hc (.refl _) (.refl _)
  | stmts _ _ ih₁ ih₂ =>
    rw [Piece.fits_append] at hf
    have h₁ := ih₁ hc hf.1
    exact h₁.append (ih₂ h₁.closed hf.2)
  | exprs _ _ ih₁ ih₂ =>
    rw [Piece.fits_append] at hf
    have h₁ := ih₁ hc hf.1
    rw [Phrase.leaves, List.length_cons, Nat.add_comm]
    exact h₁.append (ih₂ h₁.closed hf.2)
  | intLit hn => exact .literal hc hn
  | strLit => exact .literal hc trivial
  | @boolLit _ b _ =>
    refine ⟨hc, .refl _, .refl _, fun h => .ins (.nullary ?_) .nil⟩
    cases b <;> rfl
  | ident hr =>
    obtain ⟨hc', hg, hs, -⟩ := hc.resolve? hr
    exact ⟨hc', hg, .refl _, hs.checked_load hf⟩
  | unary hop _ ih =>
    rw [Piece.fits_append] at hf
    exact (ih hc hf.1).snoc (.unary (isUnary_of_unaryOpcode? hop)) rfl
  | less _ _ ih₁ ih₂ =>
    rw [Piece.fits_append, Piece.fits_append] at hf
    have h₁ := ih₁ hc hf.1.1
    exact (h₁.append (ih₂ h₁.closed hf.1.2)).snoc (.binary rfl) rfl
  | binary _ hop _ _ ih₁ ih₂ =>
    rw [Piece.fits_append, Piece.fits_append] at hf
    have h₁ := ih₁ hc hf.1.1
    exact (h₁.append (ih₂ h₁.closed hf.1.2)).snoc (.binary (isBinary_of_binaryOpcode? hop)) rfl
  | index _ _ ih₁ ih₂ =>
    rw [Piece.fits_append, Piece.fits_append] at hf
    have h₁ := ih₁ hc hf.1.1
    exact (h₁.append (ih₂ h₁.closed hf.1.2)).snoc (.binary rfl) rfl
  | ifExpr _ _ _ _ _ ihc iht ihe =>
    rw [Piece.fits_append] at hf
    obtain ⟨hfc, ⟨hft, hfe, -⟩, -⟩ := hf
    have h₁ := ihc hc hfc
    have h₂ := iht h₁.closed (Piece.fits_asBranch.mp hft)
    exact h₁.branch h₂ (ihe h₂.closed (Piece.fits_asBranch.mp hfe))
  | @fnLit _ _ names _ _ name d _ _ hnames _ _ hb _ ih =>
    rw [Piece.fits_append] at hf
    obtain ⟨t, henter, ht, hfree, -⟩ := Draft.enter_closed hc name names
    have hc' : (d.enter name names).env.Closed := by
      rw [henter]
      exact ⟨hc.global, ht, by simp [hfree], hc.nested⟩
    exact .function hc hnames (ih hc' (Piece.fits_asBody.mp hb)) hb hf.1
  | call _ _ ih₁ ih₂ =>
    rw [Piece.fits_append, Piece.fits_append] at hf
    have h₁ := ih₁ hc hf.1.1
    exact (h₁.append (ih₂ h₁.closed hf.1.2)).snoc (.call _) (by simp [Phrase.leaves]; omega)
  | arrayLit _ ih =>
    rw [Piece.fits_append] at hf
    exact (ih hc hf.1).snoc (.array _) (Nat.zero_add _).symm
  | hashLit _ ih =>
    rw [Piece.fits_append] at hf
    exact (ih hc hf.1).snoc (.hash (Nat.mul_mod_left ..)) (Nat.zero_add _).symm
  | pairs _ _ _ ih₁ ih₂ ih₃ =>
    rw [Piece.fits_append, Piece.fits_append] at hf
    have h₁ := ih₁ hc hf.1.1
    have h₂ := ih₂ h₁.closed hf.1.2
    rw [Phrase.leaves, List.length_cons, Nat.add_mul, Nat.add_comm]
    exact (h₁.append h₂).append (ih₃ h₂.closed hf.2)

end ClosureVM
