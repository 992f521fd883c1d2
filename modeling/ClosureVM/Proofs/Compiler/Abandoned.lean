import ClosureVM.Proofs.Compiler.Interrupted
import ClosureVM.Proofs.Compiler.WellFormed

/-! What a compilation that breaks off leaves behind: functions that were finished, and are checked
as all others, but of which no closure may ever be made. -/
namespace ClosureVM

open Piece

theorem Prototype.Derived.mono {pool pool' : Array Value} {num num' n : Nat} {proto : Prototype}
    (h : proto.Derived pool num n) (hp : Extends pool pool') (hn : num ≤ num') :
    proto.Derived pool' num' n := by
  obtain ⟨h₀, h₁, body, hr, hd⟩ := h
  exact ⟨h₀, h₁, body, hr, hd.mono hp hn⟩

/-- What a compilation adds to the constants between two drafts: functions that are checked, which
make closures of earlier ones, and of each at one place at most. -/
structure Draft.Adds (d d' : Draft) : Prop where
  pool : Extends d.constants d'.constants
  defines : d.env.global.numDefinitions ≤ d'.env.global.numDefinitions
  derived : ∀ k proto, d.constants.size ≤ k → d'.constants[k]? = some (.function proto) →
    ∃ n, proto.Derived d'.constants d'.env.global.numDefinitions n
  sites (k : Nat) : sitesIn d'.constants k + functionsAt d.constants k ≤
    sitesIn d.constants k + functionsAt d'.constants k
  descends : Descends d.constants → Descends d'.constants

namespace Draft

variable {d d' d'' : Draft} {ps : List Piece}

theorem Adds.of_eq (hc : d'.constants = d.constants)
    (hn : d.env.global.numDefinitions ≤ d'.env.global.numDefinitions) : d.Adds d' where
  pool := hc ▸ .refl _
  defines := hn
  derived k proto hk hp := by
    rw [hc, Array.getElem?_eq_none hk] at hp
    cases hp
  sites k := by rw [hc]
  descends hd := hc ▸ hd

theorem Adds.trans (h : d.Adds d') (h' : d'.Adds d'') : d.Adds d'' where
  pool := h.pool.trans h'.pool
  defines := Nat.le_trans h.defines h'.defines
  derived k proto hk hp := by
    by_cases hlt : k < d'.constants.size
    · rw [h'.pool.getElem?_of_lt hlt] at hp
      obtain ⟨n, hn⟩ := h.derived k proto hk hp
      exact ⟨n, hn.mono h'.pool h'.defines⟩
    · exact h'.derived k proto (Nat.le_of_not_lt hlt) hp
  sites k := by
    have h₁ := h.sites k
    have h₂ := h'.sites k
    omega
  descends hd := h'.descends (h.descends hd)

theorem Adds.literal (d : Draft) {v : Value} (hv : v.IsLiteral) : d.Adds (d.addConstant v) where
  pool := .push ..
  defines := Nat.le_refl _
  derived k proto hk hp := by
    rw [addConstant, Array.getElem?_push] at hp
    split at hp
    · cases hp
      cases hv
    · rw [Array.getElem?_eq_none hk] at hp
      cases hp
  sites k := by rw [addConstant, hv.functionsAt_push, sitesIn_push, hv.sites_eq, Nat.add_zero]
  descends hd := hd.push fun k _ => hv.sites_eq k

/-- The function of a literal is added behind all that its body adds. -/
theorem Adds.function {params : List Node} {names : List String} {statements : List Node}
    {name : Option String} (ho : d.env.Orderly) (hn : d.env.global.Numbered)
    (hparams : params.mapM Node.name? = some names)
    (ht : Translates (.stmts statements) (d.enter name names) ps d') (hf : Fits 0 ps)
    (h : (d.enter name names).Adds d') : d.Adds (d'.leave (.ofBody d' ps params name)) := by
  obtain ⟨ho₁, t, henter⟩ := enter_orderly ho name names
  have hb : Fits 0 (asBody ps) := fits_asBody.mpr hf
  have hs := (ht.leads ho₁.closed hf).sound ho.closed hparams hb
  obtain ⟨hglobal, hordered⟩ := (ht.orders ho₁ (by rw [henter]; exact hn)).body ho ht
  have hcloses : d.Closes _ (d'.leave (.ofBody d' ps params name)) := ht.closes.function hb
  have hproto : (Prototype.ofBody d' ps params name).Derived d'.constants
      d'.env.global.numDefinitions d'.env.current.free.length := by
    obtain ⟨body, e, hbody, hret, h₀, h₁, hcheck⟩ := hs
    obtain rfl : body = asBody ps := hbody.unique ⟨hb, rfl⟩
    obtain ⟨qs, i, hqs, -⟩ := hret.exists_concat
    rw [hglobal]
    exact ⟨h₀, h₁, asBody ps, hret, hb, rfl, hqs ▸ .concat qs i, ⟨e, hcheck⟩, _, _, hordered,
      Nat.le_refl _⟩
  refine ⟨hcloses.pool, ?_, fun k proto hk hp => ?_, fun k => ?_, hcloses.descends⟩
  · rw [Draft.leave, Environment.leave, hglobal]
  · rw [Draft.leave, Array.getElem?_push] at hp
    split at hp
    · cases hp
      exact ⟨_, hproto.mono (.push ..) (Nat.le_refl _)⟩
    · obtain ⟨n, hn⟩ := h.derived k proto hk hp
      exact ⟨n, hn.mono (.push ..) (Nat.le_refl _)⟩
  · have := hcloses.sites 0 k
    omega

end Draft

/-- A compiler in the middle of a program. -/
structure Compiler.Underway (c : Compiler) : Prop where
  nested : c.Nested
  orderly : c.env.Orderly
  numbered : c.env.global.Numbered

theorem Compiler.Underway.entered {c : Compiler} (h : c.Underway) (name : Option String)
    (names : List String) :
    (c.entered name names).Underway ∧ c.draft.Adds (c.entered name names).draft := by
  obtain ⟨ho, t, henter⟩ := Draft.enter_orderly (d := c.draft) h.orderly name names
  have hglobal : (c.entered name names).env.global = c.env.global := by
    change (c.draft.enter name names).env.global = _
    rw [henter]
    rfl
  exact ⟨⟨Compiler.entered_nested h.nested name names, ho, hglobal ▸ h.numbered⟩,
    .of_eq rfl (Nat.le_of_eq (congrArg Table.numDefinitions hglobal.symm))⟩

/-- A computation that adds to the constants what is in order, whether it succeeds or breaks
off. -/
structure Adds {α : Type} (x : CompileM α) : Prop where
  ok {c c' : Compiler} {a : α} :
    c.Underway → x c = .ok a c' → c'.Underway ∧ c.draft.Adds c'.draft
  missing {c c' : Compiler} {what : Missing} :
    c.Underway → x c = .error (.missing what) c' → c.draft.Adds c'.draft

/-- A computation that never breaks off: what goes wrong in it is reported. -/
structure Reports {α : Type} (x : CompileM α) : Prop where
  ne : ∀ c what c', x c ≠ .error (.missing what) c'

namespace Reports

variable {α β : Type}

theorem bind {x : CompileM α} {f : α → CompileM β} (hx : Reports x) (hf : ∀ a, Reports (f a)) :
    Reports (x >>= f) := by
  constructor
  intro c what c' h
  obtain h | ⟨a, c₁, -, h⟩ := EStateM.bind_eq_error.mp h
  · exact hx.ne c what c' h
  · exact (hf a).ne c₁ what c' h

theorem emit (op : Opcode) (operands : List Int) : Reports (CompileM.emit op operands) := by
  rw [CompileM.emit, EStateM.discard_eq]
  refine bind ?_ fun _ => ⟨fun _ _ _ h => by cases h⟩
  unfold CompileM.emitAt CompileM.emitOperands
  split <;> exact ⟨fun _ _ _ h => by cases h⟩

theorem load (s : Symbol) : Reports (CompileM.load s) := by
  unfold CompileM.load
  split <;> exact emit _ _

theorem forM {f : α → CompileM PUnit} (hf : ∀ a, Reports (f a)) :
    (l : List α) → Reports (l.forM f)
  | [] => ⟨fun _ _ _ h => by cases h⟩
  | a :: l => (hf a).bind fun _ => forM hf l

theorem makeFunction (name : Option String) (params : List Node) (table : Table) (code : Code) :
    Reports (makeFunction name params table code) := by
  unfold ClosureVM.makeFunction
  have hadd (f : Nat → Prototype) : Reports (CompileM.addFunction f) :=
    ⟨fun _ _ _ h => by cases h⟩
  exact (forM load _).bind fun _ => (hadd _).bind fun _ => emit _ _

end Reports

namespace Adds

variable {α β : Type}

theorem bind {x : CompileM α} {f : α → CompileM β} (hx : Adds x) (hf : ∀ a, Adds (f a)) :
    Adds (x >>= f) where
  ok hc h := by
    obtain ⟨a, c₁, h₁, h⟩ := EStateM.bind_eq_ok.mp h
    obtain ⟨hc₁, hd⟩ := hx.ok hc h₁
    obtain ⟨hc', hd'⟩ := (hf a).ok hc₁ h
    exact ⟨hc', hd.trans hd'⟩
  missing hc h := by
    obtain h | ⟨a, c₁, h₁, h⟩ := EStateM.bind_eq_error.mp h
    · exact hx.missing hc h
    · obtain ⟨hc₁, hd⟩ := hx.ok hc h₁
      exact hd.trans ((hf a).missing hc₁ h)

theorem stepwise : Stepwise @Adds where
  writes f g := by
    refine ⟨fun hc h => ?_, fun _ h => by cases h⟩
    cases h
    exact ⟨⟨hc.nested, hc.orderly, hc.numbered⟩, .of_eq rfl (Nat.le_refl _)⟩
  throw e := by
    refine ⟨fun _ h => (by cases h), fun _ h => ?_⟩
    cases h
    exact .of_eq rfl (Nat.le_refl _)
  bind := bind

theorem literal {v : Value} (hv : v.IsLiteral) : Adds (CompileM.addConstant v) := by
  refine ⟨fun hc h => ?_, fun _ h => by cases h⟩
  cases h
  exact ⟨⟨hc.nested, hc.orderly, hc.numbered⟩, .literal _ hv⟩

theorem define (name : String) : Adds (CompileM.define name) := by
  refine ⟨fun {c _ _} hc h => ?_, fun _ h => by cases h⟩
  cases h
  have ho : c.draft.Orders _ (c.draft.define name) := .define hc.orderly hc.numbered name
  exact ⟨⟨hc.nested.trans (c.env.length_nested_define name).symm, ho.orderly, ho.numbered⟩,
    .of_eq rfl ho.ordered.le⟩

theorem resolve (name : String) (line : Line) : Adds (CompileM.resolve name line) := by
  refine ⟨fun {c _ _} hc h => ?_, fun {c _ _} hc h => ?_⟩
  · cases hr : c.env.resolve? name with
    | none => cases (CompileM.resolve_of_none hr line).symm.trans h
    | some found =>
      obtain ⟨s, env⟩ := found
      cases (CompileM.resolve_of_some hr line).symm.trans h
      obtain ⟨⟨_, nested⟩, hin, ⟨⟩⟩ := Option.map_eq_some_iff.mp hr
      have ho : c.draft.Orders _ _ := .load hc.orderly hc.numbered hr
      exact ⟨⟨hc.nested.trans (Environment.length_resolveIn hin).symm, ho.orderly, ho.numbered⟩,
        .of_eq rfl ho.ordered.le⟩
  · cases hr : c.env.resolve? name with
    | none => cases (CompileM.resolve_of_none hr line).symm.trans h
    | some found => cases (CompileM.resolve_of_some hr line).symm.trans h

theorem openFunction {c c' : Compiler} {what : Missing} {name : Option String}
    {params : List Node} (hc : c.Underway)
    (h : openFunction name params c = .error (.missing what) c') : c.draft.Adds c'.draft := by
  have hparams : Adds (params.forM defineParam) :=
    stepwise.forM (fun param => (stepwise.need _ _).bind fun name =>
      stepwise.discard (define name)) params
  rw [openFunction_apply] at h
  obtain ⟨hentered, hd⟩ := hc.entered name []
  exact hd.trans (hparams.missing hentered h)

/-- Once the body of a function is written, nothing breaks off before the function is added. -/
theorem compileFunction (name : Option String) (params : List Node) (body : Node)
    (hb : Adds (compileBlock body)) : Adds (compileFunction name params (compileBlock body)) := by
  refine ⟨fun {c c' _} hc h => ?_, fun {c c' what} hc h => ?_⟩
  all_goals
    obtain ⟨e, c₁, hopen, he⟩ | ⟨names, hnames, hrest⟩ :=
      @compileFunction_ends c name params _ _ (compileBlock_implements body) hc.nested
  · cases h.symm.trans he
  · obtain ⟨e, c₁, -, he⟩ | ⟨ps, d, c₁, hbody, ⟨statements, -, ht⟩, hw, hmake⟩ := hrest
    · cases h.symm.trans he
    obtain ⟨hentered, -⟩ := hc.entered name names
    have hadds := (hb.ok hentered hbody).2
    rw [hw.draft] at hadds
    rw [hmake] at h
    have hnested := Compiler.returned_nested hc.nested hw
    obtain ⟨_, _, ⟨-, -, rfl⟩, hw'⟩ :=
      (@Implements.makeFunction true name params _ _).sound hnested h
    have hdraft : c'.draft = d.leave (.ofBody d ps params name) := by
      rw [hw'.draft, Compiler.draft_returned hw]
      rfl
    have henv : c'.env = (d.leave (.ofBody d ps params name)).env := congrArg Draft.env hdraft
    have ho : c.draft.Orders _ (d.leave (.ofBody d ps params name)) :=
      .function hc.orderly ht (ht.orders hentered.orderly hentered.numbered)
        (fits_asBody.mpr hw.fits)
    refine ⟨⟨hw'.isNested hnested, henv ▸ ho.orderly, henv ▸ ho.numbered⟩, ?_⟩
    rw [hdraft]
    exact .function hc.orderly hc.numbered hnames ht hw.fits hadds
  · cases h.symm.trans he
    exact openFunction hc hopen
  · obtain ⟨e, c₁, hbody, he⟩ | ⟨ps, d, c₁, -, -, -, hmake⟩ := hrest
    · cases h.symm.trans he
      obtain ⟨hentered, hd⟩ := hc.entered name names
      exact hd.trans (hb.missing hentered hbody)
    · exact absurd (hmake.symm.trans h) ((Reports.makeFunction ..).ne _ _ _)

theorem compositional : Compositional @Adds where
  toStepwise := stepwise
  literal := literal
  define := define
  resolve := resolve
  function := compileFunction

end Adds

end ClosureVM
