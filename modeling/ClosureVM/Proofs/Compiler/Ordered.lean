import ClosureVM.Proofs.Code.Ordering
import ClosureVM.Proofs.Compiler.Composition
import ClosureVM.Proofs.Evaluation.Scoping

/-! The code of a program binds globals in the order of their numbers, and reads none that is
bound further on. -/
namespace ClosureVM

namespace Piece

variable {pool : Array Value} {n m : Nat} {ps : List Piece}

theorem Ordered.of_concat {i : Instruction} (h : Ordered pool n (ps ++ [.ins i]) m)
    (hi : i.op.isLocal) : Ordered pool n ps m := by
  obtain ⟨n', hp, hlast⟩ := h.of_append
  cases hlast with
  | ins _ hr =>
    cases hr
    exact hp
  | getGlobal | setGlobal | closure => cases hi

theorem Ordered.concat_iff {i : Instruction} (hi : i.op.isLocal) :
    Ordered pool n (ps ++ [.ins i]) m ↔ Ordered pool n ps m :=
  ⟨fun h => h.of_concat hi, fun h => h.snoc hi⟩

theorem Ordered.asBranch (h : Ordered pool n ps m) : Ordered pool n (asBranch ps) m :=
  (asBranch_iff (T := fun qs => Ordered pool n qs m) (fun _ => concat_iff rfl)
    (fun _ => concat_iff rfl) ps).mpr h

theorem Ordered.asBody (h : Ordered pool n ps m) : Ordered pool n (asBody ps) m :=
  (asBody_iff (T := fun qs => Ordered pool n qs m) (fun _ => concat_iff rfl)
    (fun _ => concat_iff rfl) (fun _ => concat_iff rfl) ps).mpr h

theorem Ordered.of_isShared_eq_false {s : Symbol} (h : s.storage.isShared = false) :
    Ordered pool n [s.load] n := by
  unfold Symbol.load
  cases hs : s.storage with
  | global | builtin =>
    rw [hs] at h
    cases h
  | frame | free | self => exact .ins rfl .nil

theorem Ordered.loads {symbols : List Symbol}
    (h : ∀ s ∈ symbols, s.storage.isShared = false) :
    Ordered pool n (symbols.map Symbol.load) n := by
  induction symbols with
  | nil => exact .nil
  | cons s rest ih =>
    obtain ⟨hs, hrest⟩ := List.forall_mem_cons.mp h
    rw [List.map_cons, ← List.singleton_append]
    exact (of_isShared_eq_false hs).append (ih hrest)

end Piece

open Piece

private theorem Opcode.isLocal_of_isInert {op : Opcode} (h : op.isInert) : op.isLocal := by
  cases op <;> first | rfl | cases h

/-- Code that leads from one draft to another and binds, in order, the globals that are new. -/
structure Draft.Orders (d : Draft) (ps : List Piece) (d' : Draft) : Prop where
  orderly : d'.env.Orderly
  numbered : d'.env.global.Numbered
  pool : Extends d.constants d'.constants
  ordered : Ordered d'.constants d.env.global.numDefinitions ps d'.env.global.numDefinitions

namespace Draft

variable {d d' d'' : Draft} {ps qs : List Piece}

theorem Orders.append (h : d.Orders ps d') (h' : d'.Orders qs d'') : d.Orders (ps ++ qs) d'' :=
  ⟨h'.orderly, h'.numbered, h.pool.trans h'.pool, (h.ordered.mono h'.pool).append h'.ordered⟩

theorem Orders.load (ho : d.env.Orderly) (hn : d.env.global.Numbered) {name : String} {s : Symbol}
    {env : Environment} (h : d.env.resolve? name = some (s, env)) :
    d.Orders [s.load] { d with env } := by
  obtain ⟨ho', hc, -, hs⟩ := ho.resolve? h
  refine ⟨ho', hc.global.symm ▸ hn, .refl _, ?_⟩
  dsimp only
  rw [hc.global]
  obtain ⟨-, hs⟩ | ⟨t, outer, henv, hs⟩ := hs
  · have hmem := Environment.find?_mem hs
    have hshared := ho.closed.global s hmem
    unfold Symbol.load
    unfold Symbol.IsShared at hshared
    cases hst : s.storage with
    | global =>
      rw [hst] at hshared
      have := hn s hmem hst
      exact .getGlobal (by omega) .nil
    | builtin => exact .ins rfl .nil
    | frame | free | self =>
      rw [hst] at hshared
      exact absurd hshared id
  · have hheld : HeldBy env.nested s := by
      have hnested := ho'.closed.nested
      rw [henv] at hnested ⊢
      exact hnested.1 s (Environment.find?_mem hs)
    exact .of_isShared_eq_false hheld.storage

theorem Orders.define (ho : d.env.Orderly) (hn : d.env.global.Numbered) (name : String) :
    d.Orders [(d.env.define name).1.store] (d.define name) := by
  refine ⟨ho.define name, ?_, .refl _, ?_⟩
  · unfold Draft.define
    cases hnested : d.env.nested with
    | nil =>
      rw [Environment.define_nil hnested]
      exact hn.define name
    | cons t outer =>
      rw [Environment.define_cons hnested]
      exact hn
  · unfold Draft.define
    cases hnested : d.env.nested with
    | nil =>
      rw [Environment.define_nil hnested]
      exact .setGlobal .nil
    | cons t outer =>
      rw [Environment.define_cons hnested]
      exact .ins rfl .nil

/-- A function binds no globals. -/
theorem Orders.body {names : List String} {statements : List Node} {name : Option String}
    (ho : d.env.Orderly) (ht : Translates (.stmts statements) (d.enter name names) ps d')
    (h : (d.enter name names).Orders ps d') :
    d'.env.global = d.env.global ∧
      Ordered d'.constants d.env.global.numDefinitions (asBody ps) d.env.global.numDefinitions := by
  obtain ⟨ho₁, t, henter⟩ := enter_orderly ho name names
  obtain ⟨-, hev⟩ := ht.evolves ho₁
  rw [henter] at hev
  obtain ⟨hglobal, -⟩ := hev.outer rfl
  have hbody := h.ordered
  rw [henter, hglobal] at hbody
  exact ⟨hglobal, hbody.asBody⟩

/-- So where its closure is made the globals that it reads have had their turn. -/
theorem Orders.function {params : List Node} {names : List String} {statements : List Node}
    {name : Option String} (ho : d.env.Orderly)
    (ht : Translates (.stmts statements) (d.enter name names) ps d')
    (h : (d.enter name names).Orders ps d') (hb : Fits 0 (asBody ps)) :
    d.Orders (d'.env.current.free.map Symbol.load ++
        [.op .closure [d'.constants.size, d'.env.current.free.length]])
      (d'.leave (.ofBody d' ps params name)) := by
  obtain ⟨ho₁, t, henter⟩ := enter_orderly ho name names
  obtain ⟨-, hev⟩ := ht.evolves ho₁
  rw [henter] at hev
  obtain ⟨-, t', outer, hnested, -⟩ := hev.outer rfl
  obtain ⟨hleave, -⟩ := h.orderly.leave hev
  obtain ⟨hglobal, hbody⟩ := h.body ho ht
  have hcurrent : d'.env.current = t' := by rw [Environment.current, hnested]; rfl
  have hfree : ∀ s ∈ t'.free, s.storage.isShared = false := by
    obtain ⟨-, hheld, -⟩ : TablesClosed (t' :: outer) := hnested ▸ h.orderly.closed.nested
    exact fun s hs => (hheld s hs).storage
  refine ⟨hleave, h.numbered, h.pool.trans (.push ..), ?_⟩
  dsimp only [Draft.leave, Environment.leave]
  rw [hcurrent, hglobal]
  exact (Ordered.loads hfree).append
    (.closure Array.getElem?_push_size ⟨hb, rfl⟩ (hbody.mono (.push ..)) .nil)

end Draft

/-- The code of a phrase binds the globals that are new behind it. -/
theorem Translates.orders {phrase : Phrase} {d d' : Draft} {ps : List Piece}
    (h : Translates phrase d ps d') (ho : d.env.Orderly) (hn : d.env.global.Numbered) :
    d.Orders ps d' := by
  have hkept : d.env.Orderly → d.env.global.Numbered → d.Orders ps d' := by
    refine Translates.compose (P := fun d ps d' => d.env.Orderly → d.env.global.Numbered →
      d.Orders ps d') h ?nil ?append ?inert ?literal ?load ?define ?branch ?function
    case nil => exact fun d ho hn => ⟨ho, hn, .refl _, .nil⟩
    case append =>
      intro d d₁ d' ps qs ih ih' ho hn
      have h₁ := ih ho hn
      exact h₁.append (ih' h₁.orderly h₁.numbered)
    case inert =>
      exact fun d op operands hop ho hn =>
        ⟨ho, hn, .refl _, .ins (Opcode.isLocal_of_isInert hop) .nil⟩
    case literal => exact fun d v _ ho hn => ⟨ho, hn, .push .., .ins rfl .nil⟩
    case load => exact fun hr ho hn => .load ho hn hr
    case define => exact fun d name ho hn => .define ho hn name
    case branch =>
      intro d d₁ d' ts es iht ihe ho hn
      have h₁ := iht ho hn
      have h₂ := ihe h₁.orderly h₁.numbered
      exact ⟨h₂.orderly, h₂.numbered, h₁.pool.trans h₂.pool,
        .branch (h₁.ordered.mono h₂.pool).asBranch h₂.ordered.asBranch .nil⟩
    case function =>
      intro params names statements name d ps d' _ ht ih hb ho hn
      obtain ⟨ho₁, t, henter⟩ := Draft.enter_orderly ho name names
      exact .function ho ht (ih ho₁ (by rw [henter]; exact hn)) hb
  exact hkept ho hn

end ClosureVM
