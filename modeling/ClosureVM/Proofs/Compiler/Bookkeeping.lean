import ClosureVM.Proofs.Compiler.Interrupted
import ClosureVM.Proofs.Compiler.Records

/-! The records of a compilation are true at all times. Whatever is compiled, in whatever state,
code is only added behind what is there, and the last instruction is on record. One record before
it suffices: a `pop` is taken off only right behind the value that it drops, so the record that
comes to light is the one of that value, however deep the branches are nested. -/
namespace ClosureVM

open Instruction

namespace Environment

/-- How many definitions each table in scope has, innermost first. -/
def counts (env : Environment) : List Nat :=
  env.nested.map Table.numDefinitions ++ [env.global.numDefinitions]

variable {env env' env'' : Environment}

/-- The same tables, none of them with fewer definitions. -/
def CountsGrow (env env' : Environment) : Prop := List.Forall₂ (· ≤ ·) env.counts env'.counts

theorem CountsGrow.of_eq (h : env'.counts = env.counts) : env.CountsGrow env' := by
  rw [CountsGrow, h]
  exact List.forall₂_same.mpr fun _ _ => Nat.le_refl _

theorem CountsGrow.trans (h : env.CountsGrow env') (h' : env'.CountsGrow env'') :
    env.CountsGrow env'' := forall₂_trans Nat.le_trans h h'

theorem countsGrow_define (env : Environment) (name : String) :
    env.CountsGrow (env.define name).2 := by
  obtain ⟨global, nested⟩ := env
  cases nested with
  | nil => exact .cons (Nat.le_succ _) .nil
  | cons t outer => exact .cons (Nat.le_succ _) (List.forall₂_same.mpr fun _ _ => Nat.le_refl _)

private theorem counts_defineFunctionName (env : Environment) (name : String) :
    (env.defineFunctionName name).counts = env.counts := by
  obtain ⟨global, nested⟩ := env
  cases nested <;> rfl

private theorem counts_resolve? {name : String} {s : Symbol}
    (h : env.resolve? name = some (s, env')) : env'.counts = env.counts := by
  obtain ⟨⟨_, nested⟩, hin, ⟨⟩⟩ := Option.map_eq_some_iff.mp h
  rw [counts, counts, numDefinitions_resolveIn hin]

theorem countsGrow_foldl_define (names : List String) (env : Environment) :
    env.CountsGrow (names.foldl (fun env name => (env.define name).2) env) := by
  induction names generalizing env with
  | nil => exact .of_eq rfl
  | cons name names ih => exact (env.countsGrow_define name).trans (ih _)

/-- What was entered has a table to leave. -/
theorem CountsGrow.leave (h : env.enter.CountsGrow env') : env.CountsGrow env'.leave := by
  obtain ⟨global, nested⟩ := env'
  have hcounts : env.enter.counts = 0 :: env.counts := rfl
  rw [CountsGrow, hcounts] at h
  cases nested with
  | nil =>
    have hlen := h.length_eq
    simp [counts] at hlen
  | cons t outer =>
    cases h with
    | cons _ h => exact h

end Environment

private theorem Draft.countsGrow_enter (d : Draft) (name : Option String) (names : List String) :
    d.env.enter.CountsGrow (d.enter name names).env := by
  unfold Draft.enter
  cases given? name with
  | none => exact Environment.countsGrow_foldl_define ..
  | some name =>
    exact (Environment.CountsGrow.of_eq (Environment.counts_defineFunctionName ..)).trans
      (Environment.countsGrow_foldl_define ..)

/-- What surrounds the code that is being written stays: the code of the enclosing functions, and
the definitions in scope. -/
structure Compiler.Surrounds (c c' : Compiler) : Prop where
  outer : c'.outer = c.outer
  counts : c.env.CountsGrow c'.env

theorem Compiler.Surrounds.of_eq {c c' : Compiler} (ho : c'.outer = c.outer)
    (he : c'.env = c.env) : c.Surrounds c' := ⟨ho, .of_eq (congrArg Environment.counts he)⟩

theorem Compiler.Surrounds.trans {c c' c'' : Compiler} (h : c.Surrounds c')
    (h' : c'.Surrounds c'') : c.Surrounds c'' :=
  ⟨h'.outer.trans h.outer, h.counts.trans h'.counts⟩

/-- A step that writes no code. -/
structure Quiet {α : Type} (x : CompileM α) : Prop where
  ok {c c' : Compiler} {a : α} : x c = .ok a c' → c'.emission = c.emission ∧ c.Surrounds c'

namespace Quiet

theorem get : Quiet (MonadState.get : CompileM Compiler) where
  ok h := by
    cases h
    exact ⟨rfl, .of_eq rfl rfl⟩

theorem need {α : Type} (what : Missing) (a : Option α) : Quiet (CompileM.need what a) where
  ok h := by
    cases a with
    | none => cases h
    | some a =>
      cases h
      exact ⟨rfl, .of_eq rfl rfl⟩

theorem addConstant (v : Value) : Quiet (CompileM.addConstant v) where
  ok h := by
    cases h
    exact ⟨rfl, .of_eq rfl rfl⟩

theorem addFunction (f : Nat → Prototype) : Quiet (CompileM.addFunction f) where
  ok h := by
    cases h
    exact ⟨rfl, .of_eq rfl rfl⟩

theorem define (name : String) : Quiet (CompileM.define name) where
  ok {c c' a} h := by
    cases h
    exact ⟨rfl, rfl, c.env.countsGrow_define name⟩

theorem resolve (name : String) (line : Line) : Quiet (CompileM.resolve name line) where
  ok {c c' a} h := by
    cases hr : c.env.resolve? name with
    | none => cases (CompileM.resolve_of_none hr line).symm.trans h
    | some found =>
      obtain ⟨s, env⟩ := found
      cases (CompileM.resolve_of_some hr line).symm.trans h
      exact ⟨rfl, rfl, .of_eq (Environment.counts_resolve? hr)⟩

end Quiet

/-! ### What phrases add -/

/-- Code that ends with an instruction which is never taken off. -/
def LeavesValue (added : List Instruction) : Prop := ∃ is i, added = is ++ [i] ∧ i.op ≠ .pop

theorem LeavesValue.append_left {added : List Instruction} (is : List Instruction)
    (h : LeavesValue added) : LeavesValue (is ++ added) := by
  obtain ⟨js, i, rfl, hi⟩ := h
  exact ⟨is ++ js, i, (List.append_assoc ..).symm, hi⟩

/-- Code of statements. If it ends in a `pop`, the value that is dropped is on record as the
instruction before. -/
inductive Detachable (front : List Instruction) (em em' : Emission) : List Instruction → Prop
  | nothing : em' = em → Detachable front em em' []
  | kept {added : List Instruction} : LeavesValue added → Detachable front em em' added
  | popped {is : List Instruction} : LeavesValue is → em'.previous = record? (front ++ is) →
      Detachable front em em' (is ++ [⟨.pop, []⟩])

namespace Detachable

variable {front as bs : List Instruction} {em em₁ em' : Emission}

theorem append (h : Detachable front em em₁ as) (h' : Detachable (front ++ as) em₁ em' bs) :
    Detachable front em em' (as ++ bs) := by
  cases h' with
  | nothing he =>
    rw [List.append_nil, he]
    exact h
  | kept hv => exact .kept (hv.append_left as)
  | popped hv hp =>
    rw [List.append_assoc] at hp
    rw [← List.append_assoc]
    exact .popped (hv.append_left as) hp

/-- What looks like a `pop` of the added code is one. -/
theorem popped_of_lastIsFrom (h : Detachable front em em' as) (hh : em'.Holds (front ++ as))
    (hl : em'.lastIsFrom .pop (stream front).length = true) :
    ∃ is, as = is ++ [⟨.pop, []⟩] ∧ LeavesValue is ∧ em'.previous = record? (front ++ is) := by
  obtain ⟨js, i, has, hop⟩ := hh.lastIsFrom_iff.mp hl
  cases h with
  | nothing _ => simp at has
  | kept hv =>
    obtain ⟨ks, k, rfl, hk⟩ := hv
    obtain ⟨-, hi⟩ := List.append_inj' has rfl
    rw [List.singleton_inj.mp hi] at hk
    exact absurd hop hk
  | popped hv hp => exact ⟨_, rfl, hv, hp⟩

end Detachable

/-- A condition on what is added behind `front`, and on the records before and after. -/
abbrev CodeEffect :=
  (front : List Instruction) → (em em' : Emission) → (added : List Instruction) → Prop

/-- A step that adds code, if it succeeds. -/
structure Emits (x : CompileM Unit) (E : CodeEffect) : Prop where
  ok {c c' : Compiler} {front : List Instruction} : c.emission.Holds front → x c = .ok () c' →
    ∃ added, c'.emission.Holds (front ++ added) ∧ c.Surrounds c' ∧
      E front c.emission c'.emission added

abbrev Emits.Any (x : CompileM Unit) : Prop := Emits x fun _ _ _ _ => True

abbrev Emits.Value (x : CompileM Unit) : Prop := Emits x fun _ _ _ added => LeavesValue added

abbrev Emits.Statements (x : CompileM Unit) : Prop := Emits x Detachable

namespace CompileM

theorem emission_bind {α : Type} (f : Emission → CompileM α) (c : Compiler) :
    (CompileM.emission >>= f) c = f c.emission c := rfl

theorem editLast_eq_ok {f : Emission → Emission} {c c' : Compiler} :
    editLast f c = .ok () c' ↔
      c.emission.last ≠ none ∧ c' = { c with emission := f c.emission } := by
  rw [editLast, emission_bind]
  cases c.emission.last with
  | none => exact ⟨fun h => (by cases h), fun h => absurd rfl h.1⟩
  | some e =>
    constructor
    · intro h
      cases h
      exact ⟨by simp, rfl⟩
    · rintro ⟨-, rfl⟩
      rfl

/-- A jump gets its target. -/
theorem patchHere_holds {op : Opcode} (hw : op.widths = [2]) {front back : List Instruction}
    {c c' : Compiler} {old : Nat} (h : c.emission.Holds (front ++ ⟨op, [old]⟩ :: back))
    (hp : patchHere (stream front).length c = .ok () c') :
    c'.emission.Holds (front ++ ⟨op, [c.position]⟩ :: back) ∧
      c' = { c with emission := c'.emission } := by
  have hcode := h.code
  rw [stream_append, stream_cons, ← List.append_assoc] at hcode
  obtain ⟨hlt, rfl⟩ := (patchHere_eq_ok hw hcode).mp hp
  have hold := h.encodable ⟨op, [old]⟩ (by simp)
  have hnew : Instruction.Encodable ⟨op, [c.position]⟩ := by
    rw [Instruction.Encodable, hw]
    exact .cons hlt .nil
  exact ⟨h.replace rfl hnew (hnew.length_bytes.trans hold.length_bytes.symm), rfl⟩

end CompileM

/-- Some bytes of the code are put in the place of others, and the records are set right. -/
structure Compiler.Rewrites (front old new back : List UInt8) (c c' : Compiler) : Prop where
  before : c.emission.code.toList = front ++ old ++ back
  after : c'.emission.code.toList = front ++ new ++ back
  recorded : c'.emission.Recorded
  rest : c' = { c with emission := c'.emission }

/-- The jump at `position` gets the end of the code as its target. -/
def Compiler.Retargets (op : Opcode) (position : Nat) (c c' : Compiler) : Prop :=
  ∃ (front back : List UInt8) (old : Nat), front.length = position ∧
    c.Rewrites (front ++ [op.code]) (bigEndian 2 old) (bigEndian 2 c.emission.code.size) back c'

theorem Instruction.bytes_jump {op : Opcode} (hw : op.widths = [2]) (target : Nat) :
    bytes ⟨op, [target]⟩ = [op.code] ++ bigEndian 2 target := by
  simp [bytes, hw, operandBytes]

theorem CompileM.patchHere_retargets {op : Opcode} (hw : op.widths = [2])
    {front back : List Instruction} {c c' : Compiler} {old : Nat}
    (h : c.emission.Holds (front ++ ⟨op, [old]⟩ :: back))
    (hp : patchHere (stream front).length c = .ok () c') :
    c.Retargets op (stream front).length c' := by
  obtain ⟨hh, hrest⟩ := patchHere_holds hw h hp
  refine ⟨stream front, stream back, old, rfl, ?_, ?_, hh.recorded, hrest⟩
  · rw [h.code, stream_append, stream_cons, bytes_jump hw]
    simp only [List.append_assoc]
  · rw [hh.code, stream_append, stream_cons, bytes_jump hw]
    simp only [List.append_assoc]
    rfl

/-- A choice behind its condition, step by step. -/
inductive ChoiceSteps (x y : CompileM Unit) (c c' : Compiler) : Prop
  | mk {c₁ c₂ c₃ c₄ c₅ : Compiler} {p q : Nat} :
      CompileM.emitAt .jumpNotTruthy [unpatched] c = .ok p c₁ → compileBranch x c₁ = .ok () c₂ →
      CompileM.emitAt .jump [unpatched] c₂ = .ok q c₃ → CompileM.patchHere p c₃ = .ok () c₄ →
      compileBranch y c₄ = .ok () c₅ → CompileM.patchHere q c₅ = .ok () c' →
      c₃.Retargets .jumpNotTruthy p c₄ → c₅.Retargets .jump q c' → ChoiceSteps x y c c'

namespace Emits

variable {x y : CompileM Unit} {E E' E'' : CodeEffect}

theorem mono (hx : Emits x E)
    (h : ∀ {front em em' added}, E front em em' added → E' front em em' added) : Emits x E' where
  ok hc hok := by
    obtain ⟨added, hh, hs, he⟩ := hx.ok hc hok
    exact ⟨added, hh, hs, h he⟩

theorem any (hx : Emits x E) : Emits.Any x := hx.mono fun _ => trivial

theorem Value.statements (hx : Emits.Value x) : Emits.Statements x := hx.mono .kept

theorem seq (hx : Emits x E) (hy : Emits y E')
    (h : ∀ {front em em₁ em' as bs}, E front em em₁ as → E' (front ++ as) em₁ em' bs →
      E'' front em em' (as ++ bs)) : Emits (x >>= fun _ => y) E'' where
  ok hc hok := by
    obtain ⟨_, c₁, h₁, h₂⟩ := EStateM.bind_eq_ok.mp hok
    obtain ⟨as, hh₁, hs₁, he₁⟩ := hx.ok hc h₁
    obtain ⟨bs, hh₂, hs₂, he₂⟩ := hy.ok hh₁ h₂
    rw [List.append_assoc] at hh₂
    exact ⟨as ++ bs, hh₂, hs₁.trans hs₂, h he₁ he₂⟩

theorem seq_any (hx : Emits.Any x) (hy : Emits.Any y) : Emits.Any (x >>= fun _ => y) :=
  hx.seq hy fun _ _ => trivial

theorem seq_value (hx : Emits.Any x) (hy : Emits.Value y) : Emits.Value (x >>= fun _ => y) :=
  hx.seq hy fun {_ _ _ _ as _} _ hv => hv.append_left as

private theorem seq_statements (hx : Emits.Statements x) (hy : Emits.Statements y) :
    Emits.Statements (x >>= fun _ => y) := hx.seq hy .append

theorem bind {α : Type} {q : CompileM α} {f : α → CompileM Unit} (hq : Quiet q)
    (hf : ∀ a, Emits (f a) E) : Emits (q >>= f) E where
  ok hc hok := by
    obtain ⟨a, c₁, h₁, h₂⟩ := EStateM.bind_eq_ok.mp hok
    obtain ⟨he, hs₁⟩ := hq.ok h₁
    rw [← he] at hc
    obtain ⟨added, hh, hs₂, hE⟩ := (hf a).ok hc h₂
    rw [he] at hE
    exact ⟨added, hh, hs₁.trans hs₂, hE⟩

theorem throw (e : CompileStop) : Emits (throwThe CompileStop e) E where
  ok _ hok := by cases hok

private theorem throw_bind {α : Type} (e : CompileStop) (f : α → CompileM Unit) :
    Emits ((throwThe CompileStop e : CompileM α) >>= f) E where
  ok _ hok := by cases hok

theorem pure : Emits.Statements (Pure.pure ()) where
  ok hc hok := by
    cases hok
    exact ⟨[], by rwa [List.append_nil], .of_eq rfl rfl, .nothing rfl⟩

theorem emit {op : Opcode} (hop : op ≠ .pop) (operands : List Int) :
    Emits.Value (CompileM.emit op operands) where
  ok hc hok := by
    obtain ⟨ns, -, hi, rfl⟩ := CompileM.emit_eq_ok.mp hok
    exact ⟨[⟨op, ns⟩], hc.emit hi, .of_eq rfl rfl, [], _, rfl, hop⟩

/-- Behind a value, a `pop` can be taken off again. -/
theorem pop (hx : Emits.Value x) : Emits.Statements (x >>= fun _ => CompileM.emit .pop) where
  ok hc hok := by
    obtain ⟨_, c₁, h₁, h₂⟩ := EStateM.bind_eq_ok.mp hok
    obtain ⟨as, hh, hs, hv⟩ := hx.ok hc h₁
    obtain ⟨ns, hns, hi, rfl⟩ := CompileM.emit_eq_ok.mp h₂
    obtain rfl : ns = [] := List.map_eq_nil_iff.mp hns.symm
    have hh' := hh.emit hi
    rw [List.append_assoc] at hh'
    exact ⟨_, hh', hs.trans (.of_eq rfl rfl), .popped hv hh.last⟩

theorem load (s : Symbol) : Emits.Value (CompileM.load s) := by
  unfold CompileM.load
  split <;> exact emit (by decide) _

theorem store (s : Symbol) : Emits.Value (CompileM.store s) := by
  unfold CompileM.store
  split <;> exact emit (by decide) _

private theorem forM_load (symbols : List Symbol) : Emits.Any (symbols.forM CompileM.load) := by
  induction symbols with
  | nil => exact pure.any
  | cons s symbols ih => exact (load s).any.seq_any ih

/-! ### Choices -/

/-- A branch takes off nothing but a `pop` of its own. -/
theorem branch (hx : Emits.Statements x) : Emits.Value (compileBranch x) where
  ok {c c' front} hc hok := by
    rw [compileBranch_apply] at hok
    obtain ⟨_, c₁, h₁, h₂⟩ := EStateM.bind_eq_ok.mp hok
    obtain ⟨as, hh, hs, hd⟩ := hx.ok hc h₁
    have hstart : c.position = (stream front).length := hc.size
    rw [finishBranch, CompileM.emission_bind, hstart] at h₂
    split at h₂
    · rename_i hl
      obtain ⟨is, rfl, hv, hp⟩ := hd.popped_of_lastIsFrom hh hl
      obtain ⟨-, rfl⟩ := CompileM.editLast_eq_ok.mp h₂
      rw [← List.append_assoc] at hh
      exact ⟨is, hh.removeLast hp, hs.trans (.of_eq rfl rfl), hv⟩
    · obtain ⟨bs, hh', hs', hv⟩ := (emit (by decide) _).ok hh h₂
      rw [List.append_assoc] at hh'
      exact ⟨as ++ bs, hh', hs.trans hs', hv.append_left as⟩

section Choice

variable {c c₁ c₂ c' : Compiler} {front : List Instruction}

/-- Behind the first part of a choice, the jump over it is found where it was written. The jump
over the second part stands where the first part ends. -/
theorem choice_first (hx : Emits.Statements x) (hc : c.emission.Holds front)
    (h₁ : compileBranch x (c.emitted ⟨.jumpNotTruthy, [9999]⟩) = .ok () c₁)
    (h₂ : CompileM.patchHere c.position (c₁.emitted ⟨.jump, [9999]⟩) = .ok () c₂) :
    ∃ ts target, c₂.emission.Holds (front ++ ⟨.jumpNotTruthy, [target]⟩ :: ts ++
        [⟨.jump, [9999]⟩]) ∧
      c₁.position = (stream (front ++ ⟨.jumpNotTruthy, [target]⟩ :: ts)).length ∧
      c.Surrounds c₂ ∧ (c₁.emitted ⟨.jump, [9999]⟩).Retargets .jumpNotTruthy c.position c₂ := by
  have hp : c.position = (stream front).length := hc.size
  obtain ⟨ts, hh₁, hs₁, -⟩ := hx.branch.ok (hc.emit (Compiler.encodable_unpatched rfl)) h₁
  rw [List.append_assoc, List.singleton_append] at hh₁
  have hh := hh₁.emit (@Compiler.encodable_unpatched .jump rfl)
  rw [List.append_assoc, List.cons_append] at hh
  rw [hp] at h₂ ⊢
  obtain ⟨hh₂, hrest⟩ := CompileM.patchHere_holds rfl hh h₂
  have hs : c.Surrounds c₁ := ⟨hs₁.outer, hs₁.counts⟩
  refine ⟨ts, (c₁.emitted ⟨.jump, [9999]⟩).position, ?_, ?_, hs.trans (.of_eq ?_ ?_),
    CompileM.patchHere_retargets rfl hh h₂⟩
  · rw [List.append_assoc, List.cons_append]
    exact hh₂
  · refine hh₁.size.trans ?_
    simp only [stream_append, stream_cons, List.length_append]
    rfl
  · rw [hrest]
    rfl
  · rw [hrest]
    rfl

theorem choice_ok (hx : Emits.Statements x) (hy : Emits.Statements y) (hc : c.emission.Holds front)
    (h : compileChoice x y c = .ok () c') :
    ChoiceSteps x y c c' ∧ ∃ added, c'.emission.Holds (front ++ added) ∧ c.Surrounds c' ∧
      LeavesValue added := by
  rw [compileChoice, EStateM.bind_ok (CompileM.emitAt_unpatched rfl c)] at h
  obtain ⟨_, c₁, hfirst, h⟩ := EStateM.bind_eq_ok.mp h
  rw [EStateM.bind_ok (CompileM.emitAt_unpatched rfl c₁)] at h
  obtain ⟨_, c₂, hpatch, h⟩ := EStateM.bind_eq_ok.mp h
  obtain ⟨_, c₃, hsecond, h⟩ := EStateM.bind_eq_ok.mp h
  obtain ⟨ts, target, hh₂, hq, hs₂, hto⟩ := hx.choice_first hc hfirst hpatch
  obtain ⟨es, hh₃, hs₃, hv⟩ := hy.branch.ok hh₂ hsecond
  rw [List.append_assoc, List.singleton_append] at hh₃
  have hlast := h
  rw [hq] at hlast
  obtain ⟨hh', hrest⟩ := CompileM.patchHere_holds rfl hh₃ hlast
  have hend : c₃.Retargets .jump c₁.position c' := by
    rw [hq]
    exact CompileM.patchHere_retargets rfl hh₃ hlast
  refine ⟨.mk (CompileM.emitAt_unpatched rfl c) hfirst (CompileM.emitAt_unpatched rfl c₁) hpatch
    hsecond h hto hend, ⟨.jumpNotTruthy, [target]⟩ :: ts ++ ⟨.jump, [c₃.position]⟩ :: es, ?_,
    hs₂.trans (hs₃.trans (.of_eq ?_ ?_)), ?_⟩
  · rw [← List.append_assoc]
    exact hh'
  · rw [hrest]
  · rw [hrest]
  · exact (hv.append_left [_]).append_left (_ :: ts)

theorem choice (hx : Emits.Statements x) (hy : Emits.Statements y) :
    Emits.Value (compileChoice x y) := ⟨fun hc h => (hx.choice_ok hy hc h).2⟩

end Choice

/-! ### Functions -/

theorem makeFunction (name : Option String) (params : List Node) (table : Table) (code : Code) :
    Emits.Value (makeFunction name params table code) :=
  (forM_load _).seq_value (bind (.addFunction _) fun _ => emit (by decide) _)

end Emits

private theorem openFunction_ok {name : Option String} {params : List Node} {c c' : Compiler}
    (h : openFunction name params c = .ok () c') : ∃ names, c' = c.entered name names := by
  have hcases := openFunction_cases name params c
  cases hnames : params.mapM Node.name? with
  | none =>
    rw [hnames] at hcases
    obtain ⟨e, c₁, he⟩ := hcases
    cases h.symm.trans he
  | some names =>
    rw [hnames] at hcases
    cases h.symm.trans hcases
    exact ⟨names, rfl⟩

private theorem CompileM.leaveScope_ok {c c' : Compiler} {em : Emission} {outer : List Emission}
    {code : Code} (ho : c.outer = em :: outer) (h : leaveScope c = .ok code c') :
    c' = { c with env := c.env.leave, emission := em, outer } := by
  rw [leaveScope, EStateM.bind_ok (EStateM.get_apply c), ho] at h
  cases h
  rfl

/-- The end of a function touches nothing around it. -/
theorem compileReturn_surrounds {c c' : Compiler} (h : compileReturn c = .ok () c') :
    c.Surrounds c' := by
  have hrest {c : Compiler} (h : (do unless (← CompileM.emission).lastIs .returnValue do
      CompileM.emit .returnNull) c = .ok () c') : c.Surrounds c' := by
    rw [CompileM.emission_bind] at h
    split at h
    · cases h
      exact .of_eq rfl rfl
    · obtain ⟨ns, -, -, rfl⟩ := CompileM.emit_eq_ok.mp h
      exact .of_eq rfl rfl
  rw [compileReturn, CompileM.emission_bind] at h
  split at h
  · obtain ⟨_, c₁, h₁, h₂⟩ := EStateM.bind_eq_ok.mp h
    obtain ⟨-, rfl⟩ := CompileM.editLast_eq_ok.mp h₁
    have hs := hrest h₂
    exact ⟨hs.outer, hs.counts⟩
  · exact hrest h

/-- The body is written apart, and then the code around it goes on. -/
theorem Emits.function (name : Option String) (params : List Node) {body : CompileM Unit}
    (hb : Emits.Statements body) : Emits.Value (compileFunction name params body) where
  ok {c c' front} hc hok := by
    rw [compileFunction_eq] at hok
    obtain ⟨_, c₀, hopen, hok⟩ := EStateM.bind_eq_ok.mp hok
    obtain ⟨names, rfl⟩ := openFunction_ok hopen
    obtain ⟨_, c₁, hbody, hok⟩ := EStateM.bind_eq_ok.mp hok
    obtain ⟨_, c₂, hret, hok⟩ := EStateM.bind_eq_ok.mp hok
    rw [EStateM.bind_ok (EStateM.get_apply c₂)] at hok
    obtain ⟨code, c₃, hleave, hok⟩ := EStateM.bind_eq_ok.mp hok
    obtain ⟨_, -, hs₁, -⟩ := hb.ok .nil hbody
    have hs₂ := hs₁.trans (compileReturn_surrounds hret)
    have hc₃ := CompileM.leaveScope_ok hs₂.outer hleave
    have hcounts := (c.draft.countsGrow_enter name names).trans hs₂.counts
    have hh₃ : c₃.emission.Holds front := by
      rw [hc₃]
      exact hc
    have hs₃ : c.Surrounds c₃ := by
      rw [hc₃]
      exact ⟨rfl, hcounts.leave⟩
    obtain ⟨added, hh, hs, hv⟩ := (Emits.makeFunction ..).ok hh₃ hok
    exact ⟨added, hh, hs₃.trans hs, hv⟩

theorem Emits.literal (line : Line) (value : Numeral) :
    Emits.Value (compileLiteral line value) := by
  unfold compileLiteral
  split
  · split
    · exact .bind (.addConstant _) fun _ => .emit (by decide) _
    · exact .throw _
  · exact .throw _

theorem Emits.unbound {node : Node} (h : Emits.Value (compileExpr (node.boundTo ""))) :
    Emits.Value (compileExpr node) := by
  rwa [node.boundTo_empty] at h

private theorem unaryOpcode?_ne_pop {s : String} {op : Opcode} (h : unaryOpcode? s = some op) :
    op ≠ .pop := by
  unfold unaryOpcode? at h
  split at h <;> cases h <;> decide

private theorem binaryOpcode?_ne_pop {s : String} {op : Opcode} (h : binaryOpcode? s = some op) :
    op ≠ .pop := by
  unfold binaryOpcode? at h
  split at h <;> cases h <;> decide

mutual

theorem compileStmt_emits : (node : Node) → Emits.Statements (compileStmt node)
  | .exprStmt _ expr => (Emits.unbound (compileExpr_emits expr "")).pop
  | .letStmt _ target value => by
    rw [compileStmt_letStmt]
    exact .bind (.need _ _) fun name => ((compileExpr_emits value name).any.seq_value
      (.bind (.define _) .store)).statements
  | .returnStmt _ value => .bind .get fun c => by
    have hv := ((compileResult_emits value).any.seq_value
      (@Emits.emit .returnValue (by decide) [])).statements
    split
    · exact .throw_bind _ _
    · exact hv
  | .block _ statements => compileStmts_emits statements
  | .foreign .. | .program .. | .intLit .. | .strLit .. | .boolLit .. | .ident .. | .unary ..
  | .binary .. | .ifExpr .. | .fnLit .. | .call .. | .arrayLit .. | .hashLit .. | .index .. =>
    .throw _

theorem compileResult_emits : (value : Option Node) → Emits.Value (compileResult value)
  | none => .emit (by decide) _
  | some value => .unbound (compileExpr_emits value "")

theorem compileStmts_emits : (nodes : List Node) → Emits.Statements (compileStmts nodes)
  | [] => .pure
  | node :: rest => (compileStmt_emits node).seq_statements (compileStmts_emits rest)

theorem compileBlock_emits : (node : Node) → Emits.Statements (compileBlock node)
  | .block _ statements | .program _ statements => compileStmts_emits statements
  | .foreign .. | .letStmt .. | .returnStmt .. | .exprStmt .. | .intLit .. | .strLit ..
  | .boolLit .. | .ident .. | .unary .. | .binary .. | .ifExpr .. | .fnLit .. | .call ..
  | .arrayLit .. | .hashLit .. | .index .. => .throw _

theorem compileOptional_emits : (node : Option Node) → Emits.Statements (compileOptional node)
  | none => .pure
  | some node => compileBlock_emits node

theorem compileExpr_emits : (node : Node) → (name : String) →
    Emits.Value (compileExpr (node.boundTo name))
  | .intLit line value, _ => .literal line value
  | .strLit _ value, _ => .bind (.addConstant _) fun _ => .emit (by decide) _
  | .boolLit _ value, _ => .emit (by split <;> decide) _
  | .ident line name, _ => .bind (.resolve name line) .load
  | .unary line op right, _ => (Emits.unbound (compileExpr_emits right "")).any.seq_value (by
    split
    · rename_i h
      exact .emit (unaryOpcode?_ne_pop h) _
    · exact .throw _)
  | .binary line left op right, _ => by
    change Emits.Value (compileExpr (.binary line left op right))
    rw [compileExpr]
    have hl := (Emits.unbound (compileExpr_emits left "")).any
    have hr := (Emits.unbound (compileExpr_emits right "")).any
    split
    · exact hr.seq_value (hl.seq_value (.emit (by decide) _))
    · refine hl.seq_value (hr.seq_value ?_)
      split
      · rename_i h
        exact .emit (binaryOpcode?_ne_pop h) _
      · exact .throw _
  | .ifExpr _ condition first second, _ =>
    (Emits.unbound (compileExpr_emits condition "")).any.seq_value
      ((compileOptional_emits first).choice (compileOptional_emits second))
  | .fnLit _ params body name, _ => .function _ _ (compileBlock_emits body)
  | .call _ callee args, _ =>
    (Emits.unbound (compileExpr_emits callee "")).any.seq_value
      ((compileExprs_emits args).seq_value (.emit (by decide) _))
  | .arrayLit _ elements, _ => (compileExprs_emits elements).seq_value (.emit (by decide) _)
  | .hashLit _ pairs, _ => (compilePairs_emits pairs).seq_value (.emit (by decide) _)
  | .index _ left sub, _ =>
    (Emits.unbound (compileExpr_emits left "")).any.seq_value
      ((Emits.unbound (compileExpr_emits sub "")).any.seq_value (.emit (by decide) _))
  | .foreign .., _ | .program .., _ | .letStmt .., _ | .returnStmt .., _ | .exprStmt .., _
  | .block .., _ => .throw _

theorem compileExprs_emits : (nodes : List Node) → Emits.Any (compileExprs nodes)
  | [] => Emits.pure.any
  | node :: rest =>
    (Emits.unbound (compileExpr_emits node "")).any.seq_any (compileExprs_emits rest)

theorem compilePairs_emits : (pairs : List (Node × Node)) → Emits.Any (compilePairs pairs)
  | [] => Emits.pure.any
  | (key, value) :: rest =>
    (Emits.unbound (compileExpr_emits key "")).any.seq_any
      ((Emits.unbound (compileExpr_emits value "")).any.seq_any (compilePairs_emits rest))

end

/-! ### What is kept -/

/-- A compilation has gone on from one state with true records to another: code, constants and
definitions have been added, and the enclosing code is untouched. -/
structure Compiler.Advances (c c' : Compiler) : Prop where
  recorded : c'.emission.Recorded
  outer : c'.outer = c.outer
  code : c.emission.code.toList <+: c'.emission.code.toList
  constants : Extends c.constants c'.constants
  definitions : c.env.CountsGrow c'.env

/-- A step that keeps the records true, and the constants in any case. -/
structure Upkeep (x : CompileM Unit) : Prop where
  ok {c c' : Compiler} : c.emission.Recorded → x c = .ok () c' → c.Advances c'
  error {c c' : Compiler} {stop : CompileStop} : c.emission.Recorded → x c = .error stop c' →
    Extends c.constants c'.constants

theorem Emits.upkeep {x : CompileM Unit} {E : CodeEffect} (hx : Emits x E) (hk : Keeps x) :
    Upkeep x where
  ok {c c'} hc h := by
    obtain ⟨front, hc⟩ := Emission.recorded_iff.mp hc
    obtain ⟨added, hh, hs, -⟩ := hx.ok hc h
    have hcont := hk.continues c
    rw [h] at hcont
    refine ⟨hh.recorded, hs.outer, ?_, hcont.constants, hs.counts⟩
    rw [hc.code, hh.code, stream_append]
    exact List.prefix_append ..
  error {c c' stop} _ h := by
    have hcont := hk.continues c
    rw [h] at hcont
    exact hcont.constants

/-- A `pop` that a branch takes for its own is its own. -/
theorem Emits.Statements.removeLast {x : CompileM Unit} (hx : Emits.Statements x) {c c₁ : Compiler}
    (hc : c.emission.Recorded) (h : x c = .ok () c₁)
    (hl : c₁.emission.lastIsFrom .pop c.emission.code.size = true) :
    ∃ own c', CompileM.removeLast c₁ = .ok () c' ∧
      c₁.Rewrites (c.emission.code.toList ++ own) [Opcode.pop.code] [] [] c' := by
  obtain ⟨front, hc⟩ := Emission.recorded_iff.mp hc
  obtain ⟨added, hh, -, hd⟩ := hx.ok hc h
  rw [hc.size] at hl
  obtain ⟨is, rfl, -, hp⟩ := hd.popped_of_lastIsFrom hh hl
  rw [← List.append_assoc] at hh
  have hlast : c₁.emission.last ≠ none := by
    rw [hh.last, record?_concat]
    exact Option.some_ne_none _
  have hpop : stream [⟨.pop, []⟩] = [Opcode.pop.code] := rfl
  have hr := hh.removeLast hp
  refine ⟨stream is, _, CompileM.editLast_eq_ok.mpr ⟨hlast, rfl⟩, ?_, ?_, hr.recorded, rfl⟩
  · rw [hh.code, hc.code, stream_append, stream_append, hpop, List.append_nil]
  · rw [hr.code, hc.code, stream_append, List.append_nil, List.append_nil]

/-- A `pop` at the end of the code becomes a return. -/
theorem CompileM.returnLast_rewrites {c : Compiler} (hc : c.emission.Recorded)
    (hl : c.emission.lastIs .pop = true) :
    ∃ front c', CompileM.returnLast c = .ok () c' ∧
      c.Rewrites front [Opcode.pop.code] [Opcode.returnValue.code] [] c' := by
  obtain ⟨is, hc⟩ := Emission.recorded_iff.mp hc
  obtain ⟨js, i, rfl, hop⟩ := hc.lastIs_iff.mp hl
  obtain ⟨op, operands⟩ := i
  obtain rfl : op = .pop := hop
  obtain rfl : operands = [] :=
    Piece.operands_eq_nil rfl (hc.encodable ⟨.pop, operands⟩ (by simp))
  have hlast : c.emission.last ≠ none := by
    rw [hc.last, record?_concat]
    exact Option.some_ne_none _
  have hr := hc.returnLast
  refine ⟨stream js, _, editLast_eq_ok.mpr ⟨hlast, rfl⟩, ?_, ?_, hr.recorded, rfl⟩
  · rw [hc.code, stream_append, List.append_nil]
    rfl
  · rw [hr.code, stream_append, List.append_nil]
    rfl

/-- Statements, expressions and branches, compiled in any state with true records, leave such a
state, with the code, the constants and the definitions that there were and with the enclosing code
untouched; if they fail, the constants are still there. So what is changed afterwards is what was
meant: a branch takes off one `pop` of its own, the end of a function turns the last `pop` into a
return, and the jumps of a choice are given targets in the two bytes behind their opcodes. -/
theorem compile_upkeep :
    (∀ node : Node, Upkeep (compileStmt node) ∧ Upkeep (compileExpr node)) ∧
    (∀ branch : Option Node, Upkeep (compileBranch (compileOptional branch)) ∧
      ∀ c c₁ : Compiler, c.emission.Recorded → compileOptional branch c = .ok () c₁ →
        c₁.emission.lastIsFrom .pop c.emission.code.size = true →
        ∃ own c', CompileM.removeLast c₁ = .ok () c' ∧
          c₁.Rewrites (c.emission.code.toList ++ own) [Opcode.pop.code] [] [] c') ∧
    (∀ c : Compiler, c.emission.Recorded → c.emission.lastIs .pop = true →
      ∃ front c', CompileM.returnLast c = .ok () c' ∧
        c.Rewrites front [Opcode.pop.code] [Opcode.returnValue.code] [] c') ∧
    (∀ (line : Line) (condition : Node) (first second : Option Node) (c c' : Compiler),
      c.emission.Recorded → compileExpr (.ifExpr line condition first second) c = .ok () c' →
      ∃ c₁, compileExpr condition c = .ok () c₁ ∧
        ChoiceSteps (compileOptional first) (compileOptional second) c₁ c') := by
  have hexpr (node : Node) := Emits.unbound (compileExpr_emits node "")
  refine ⟨fun node => ⟨?_, ?_⟩, fun branch => ⟨?_, ?_⟩, ?_, ?_⟩
  · exact (compileStmt_emits node).upkeep (Keeps.compositional.stmt node)
  · exact (hexpr node).upkeep (Compositional.unbound (Keeps.compositional.expr node ""))
  · exact (compileOptional_emits branch).branch.upkeep
      (Keeps.stepwise.compileBranch (Keeps.compositional.optional branch))
  · exact fun c c₁ => (compileOptional_emits branch).removeLast
  · exact fun c => CompileM.returnLast_rewrites
  · intro line condition first second c c' hc h
    obtain ⟨front, hc⟩ := Emission.recorded_iff.mp hc
    rw [compileExpr, compileIf_eq] at h
    obtain ⟨_, c₁, h₁, h₂⟩ := EStateM.bind_eq_ok.mp h
    obtain ⟨_, hh, -, -⟩ := (hexpr condition).ok hc h₁
    exact ⟨c₁, h₁, ((compileOptional_emits first).choice_ok (compileOptional_emits second) hh h₂).1⟩

end ClosureVM
