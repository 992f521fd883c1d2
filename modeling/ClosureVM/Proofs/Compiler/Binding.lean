import ClosureVM.Proofs.Code.Binding
import ClosureVM.Proofs.Compiler.Composition
import ClosureVM.Proofs.Evaluation.Scoping

/-! The code of a program binds the locals of each function in turn, and loads what a closure
captures right before it makes the closure. -/
namespace ClosureVM

namespace Piece

variable {pool : Array Value} {k n m : Nat} {ps : List Piece}

theorem Binds.concat_iff {i : Instruction} (hi : i.op.isDetached) :
    Binds pool k n (ps ++ [.ins i]) m ↔ Binds pool k n ps m :=
  ⟨fun h => h.of_concat hi, fun h => h.snoc hi⟩

theorem Binds.asBranch (h : Binds pool k n ps m) : Binds pool k n (asBranch ps) m :=
  (asBranch_iff (T := fun qs => Binds pool k n qs m) (fun _ => concat_iff rfl)
    (fun _ => concat_iff rfl) ps).mpr h

theorem Binds.asBody (h : Binds pool k n ps m) : Binds pool k n (asBody ps) m :=
  (asBody_iff (T := fun qs => Binds pool k n qs m) (fun _ => concat_iff rfl)
    (fun _ => concat_iff rfl) (fun _ => concat_iff rfl) ps).mpr h

end Piece

private theorem Opcode.isDetached_of_isInert {op : Opcode} (h : op.isInert) : op.isDetached := by
  cases op <;> first | rfl | cases h

namespace Environment

variable {env env' : Environment} {s : Symbol}

/-- Captures bind no locals. -/
theorem Captures.numLocals (h : env.Captures env') :
    env'.shape.numLocals = env.shape.numLocals := by
  have hn := h.nested
  unfold shape
  cases he : env.nested with
  | nil =>
    rw [he] at hn
    rw [List.forall₂_nil_left_iff.mp hn]
  | cons t outer =>
    rw [he] at hn
    obtain ⟨t', outer', ht, -, he'⟩ := List.forall₂_cons_left_iff.mp hn
    rw [he']
    exact ht.numDefinitions

/-- A symbol of the innermost function is loaded so that it can be captured. -/
theorem exists_load (h : HeldBy env.nested s) :
    ∃ i, s.load = .ins i ∧ i.op.isCapture ∧
      (i.op = .getLocal → i.operands.getD 0 0 < env.shape.numLocals) := by
  unfold shape Symbol.load
  cases he : env.nested with
  | nil =>
    rw [he] at h
    exact absurd h id
  | cons t outer =>
    rw [he] at h
    change t.Holds s at h
    unfold Table.Holds at h
    cases hs : s.storage with
    | frame =>
      rw [hs] at h
      obtain ⟨i, hi, hlt⟩ := h
      refine ⟨_, rfl, rfl, fun _ => ?_⟩
      rw [hi]
      exact hlt
    | free | self =>
      refine ⟨_, rfl, rfl, fun hop => ?_⟩
      cases hop
    | global | builtin =>
      rw [hs] at h
      exact absurd h id

/-- Loads come before the code that they are for. -/
theorem binds_loads {pool : Array Value} {symbols : List Symbol}
    (h : ∀ s ∈ symbols, HeldBy env.nested s) {k m : Nat} {rest : List Piece}
    (hr : Piece.Binds pool (k + symbols.length) env.shape.numLocals rest m) :
    Piece.Binds pool k env.shape.numLocals (symbols.map Symbol.load ++ rest) m := by
  induction symbols generalizing k with
  | nil => exact hr
  | cons s symbols ih =>
    obtain ⟨hs, hsymbols⟩ := List.forall_mem_cons.mp h
    obtain ⟨i, hi, hcapture, hlt⟩ := exists_load hs
    rw [List.length_cons, Nat.add_comm symbols.length, ← Nat.add_assoc] at hr
    rw [List.map_cons, List.cons_append, hi]
    exact .load hcapture hlt (ih hsymbols hr)

end Environment

/-- Code that leads from one draft to another and binds, in turn, the locals that are new. -/
structure Draft.Binds (d : Draft) (ps : List Piece) (d' : Draft) : Prop where
  orderly : d'.env.Orderly
  pool : Extends d.constants d'.constants
  binds : Piece.Binds d'.constants 0 d.env.shape.numLocals ps d'.env.shape.numLocals

namespace Draft

variable {d d' d'' : Draft} {ps qs : List Piece}

theorem Binds.append (h : d.Binds ps d') (h' : d'.Binds qs d'') : d.Binds (ps ++ qs) d'' :=
  ⟨h'.orderly, h.pool.trans h'.pool, (h.binds.mono h'.pool).append h'.binds⟩

theorem Binds.load (ho : d.env.Orderly) {name : String} {s : Symbol} {env : Environment}
    (h : d.env.resolve? name = some (s, env)) : d.Binds [s.load] { d with env } := by
  obtain ⟨ho', hc, -, hs⟩ := ho.resolve? h
  refine ⟨ho', .refl _, ?_⟩
  dsimp only
  rw [← hc.numLocals]
  rcases hs with ⟨-, hs⟩ | ⟨t, outer, henv, hs⟩
  · have hshared := ho.closed.global s (Environment.find?_mem hs)
    unfold Symbol.IsShared at hshared
    unfold Symbol.load
    cases hst : s.storage with
    | global | builtin => exact .ins rfl .nil
    | frame | free | self =>
      rw [hst] at hshared
      exact absurd hshared id
  · have hheld : HeldBy env.nested s := by
      have hnested := ho'.closed.nested
      rw [henv] at hnested ⊢
      exact hnested.1 s (Environment.find?_mem hs)
    obtain ⟨i, hi, hcapture, hlt⟩ := Environment.exists_load hheld
    rw [hi]
    exact .load hcapture hlt .nil

theorem Binds.define (ho : d.env.Orderly) (name : String) :
    d.Binds [(d.env.define name).1.store] (d.define name) := by
  refine ⟨ho.define name, .refl _, ?_⟩
  unfold Draft.define Environment.shape
  cases hnested : d.env.nested with
  | nil =>
    rw [Environment.define_nil hnested]
    exact .ins rfl .nil
  | cons t outer =>
    rw [Environment.define_cons hnested]
    exact .setLocal .nil

/-- A function starts with its parameters bound, and binds nothing in the scope around it. -/
theorem Binds.function {params : List Node} {names : List String} {statements : List Node}
    {name : Option String} (ho : d.env.Orderly) (hparams : params.mapM Node.name? = some names)
    (ht : Translates (.stmts statements) (d.enter name names) ps d')
    (h : (d.enter name names).Binds ps d') (hb : Piece.Fits 0 (Piece.asBody ps)) :
    d.Binds (d'.env.current.free.map Symbol.load ++
        [.op .closure [d'.constants.size, d'.env.current.free.length]])
      (d'.leave (.ofBody d' ps params name)) := by
  obtain ⟨t, henter, -, -, hnum⟩ := enter_closed ho.closed name names
  obtain ⟨ho₁, -⟩ := enter_orderly ho name names
  obtain ⟨-, hev⟩ := ht.evolves ho₁
  rw [henter] at hev
  obtain ⟨-, t', outer, hnested, -⟩ := hev.outer rfl
  obtain ⟨hleave, hcaptures⟩ := h.orderly.leave hev
  have hcurrent : d'.env.current = t' := by rw [Environment.current, hnested]; rfl
  have houter : d'.env.leave.nested = outer := by rw [Environment.leave, hnested]; rfl
  have hheld : ∀ s ∈ t'.free, HeldBy d'.env.leave.nested s := by
    obtain ⟨-, hheld, -⟩ : TablesClosed (t' :: outer) := hnested ▸ h.orderly.closed.nested
    rw [houter]
    exact hheld
  have hbody : Piece.Binds d'.constants 0 params.length ps t'.numDefinitions := by
    have hbinds := h.binds
    unfold Environment.shape at hbinds
    rw [henter, hnested] at hbinds
    rw [Node.length_names hparams, ← hnum]
    exact hbinds
  have hlocals : (Prototype.ofBody d' ps params name).numLocals.toNat = t'.numDefinitions := by
    rw [← hcurrent]
    rfl
  have hproto : Piece.Binds (d'.constants.push (.function (.ofBody d' ps params name))) 0
      params.length (Piece.asBody ps) t'.numDefinitions := hbody.asBody.mono (.push ..)
  refine ⟨hleave, h.pool.trans (.push ..), ?_⟩
  dsimp only [Draft.leave]
  rw [hcurrent, ← hcaptures.numLocals]
  apply Environment.binds_loads hheld
  rw [Nat.zero_add]
  refine .closure le_rfl Array.getElem?_push_size ⟨hb, rfl⟩ ?_ .nil
  rw [hlocals]
  exact hproto

end Draft

/-- The code of a phrase binds the locals that are new behind it. -/
theorem Translates.binds {phrase : Phrase} {d d' : Draft} {ps : List Piece}
    (h : Translates phrase d ps d') (ho : d.env.Orderly) : d.Binds ps d' := by
  have hkept : d.env.Orderly → d.Binds ps d' := by
    refine Translates.compose (P := fun d ps d' => d.env.Orderly → d.Binds ps d') h
      ?nil ?append ?inert ?literal ?load ?define ?branch ?function
    case nil => exact fun d ho => ⟨ho, .refl _, .nil⟩
    case append =>
      intro d d₁ d' ps qs ih ih' ho
      have h₁ := ih ho
      exact h₁.append (ih' h₁.orderly)
    case inert =>
      intro d op operands hop ho
      exact ⟨ho, .refl _, .ins (Opcode.isDetached_of_isInert hop) .nil⟩
    case literal => exact fun d v _ ho => ⟨ho, .push .., .ins rfl .nil⟩
    case load => exact fun hr ho => .load ho hr
    case define => exact fun d name ho => .define ho name
    case branch =>
      intro d d₁ d' ts es iht ihe ho
      have h₁ := iht ho
      have h₂ := ihe h₁.orderly
      exact ⟨h₂.orderly, h₁.pool.trans h₂.pool,
        .branch (h₁.binds.mono h₂.pool).asBranch h₂.binds.asBranch .nil⟩
    case function =>
      intro params names statements name d ps d' hparams ht ih hb ho
      exact .function ho hparams ht (ih (Draft.enter_orderly ho name names).1) hb
  exact hkept ho

end ClosureVM
