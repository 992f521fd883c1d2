import ClosureVM.Proofs.Code.Boundaries
import ClosureVM.Proofs.Code.Checking

/-! Code that binds locals in turn: each is set once, and read only behind its turn. Closures are
made of what has just been loaded. -/
namespace ClosureVM

namespace Opcode

/-- The instructions that load what a closure can capture. -/
def isCapture : Opcode → Bool
  | getLocal | getFree | currentClosure => true
  | _ => false

/-- Opcodes that have to do with neither locals nor closures. -/
def isDetached : Opcode → Bool
  | getLocal | setLocal | getFree | currentClosure | closure => false
  | _ => true

end Opcode

def Located.setLocal? : Located → Option Nat
  | ⟨_, ⟨.setLocal, [a]⟩⟩ => some a
  | _ => none

theorem Located.setLocal?_eq_none {i : Instruction} (h : i.op.isDetached ∨ i.op.isCapture)
    (offset : Nat) : setLocal? ⟨offset, i⟩ = none := by
  rcases i with ⟨op, operands⟩
  cases op with
  | setLocal => rcases h with h | h <;> cases h
  | _ => rfl

/-- The locals that code sets, in the order of its instructions. -/
def Code.setLocals (code : Code) : List Nat :=
  code.listing.items.toList.filterMap Located.setLocal?

namespace Piece

/-- Code that goes on where `n` locals have had their turn and leads to where `m` have. The `k`
instructions before it were loads. -/
inductive Binds (pool : Array Value) : Nat → Nat → List Piece → Nat → Prop
  | nil {k n : Nat} : Binds pool k n [] n
  | ins {i : Instruction} {k n m : Nat} {rest : List Piece} :
    i.op.isDetached → Binds pool 0 n rest m → Binds pool k n (.ins i :: rest) m
  | load {i : Instruction} {k n m : Nat} {rest : List Piece} :
    i.op.isCapture → (i.op = .getLocal → i.operands.getD 0 0 < n) →
      Binds pool (k + 1) n rest m → Binds pool k n (.ins i :: rest) m
  | setLocal {k n m : Nat} {rest : List Piece} :
    Binds pool 0 (n + 1) rest m → Binds pool k n (.op .setLocal [n] :: rest) m
  | closure {a b k n m : Nat} {proto : Prototype} {body rest : List Piece} :
    b ≤ k → pool[a]? = some (.function proto) → proto.HasBody body →
      Binds pool 0 proto.numParams.toNat body proto.numLocals.toNat → Binds pool 0 n rest m →
      Binds pool k n (.op .closure [a, b] :: rest) m
  | branch {k n n₁ n₂ m : Nat} {t e rest : List Piece} :
    Binds pool 0 n t n₁ → Binds pool 0 n₁ e n₂ → Binds pool 0 n₂ rest m →
      Binds pool k n (.branch t e :: rest) m
  | skip {k n n₁ m : Nat} {rest : List Piece} :
    n ≤ n₁ → Binds pool 0 n₁ rest m → Binds pool k n (.skip :: rest) m

namespace Binds

variable {pool pool' : Array Value} {k k' n n' m : Nat} {ps qs : List Piece}

theorem le (h : Binds pool k n ps m) : n ≤ m := by
  induction h <;> omega

theorem mono (h : Binds pool k n ps m) (hp : Extends pool pool') : Binds pool' k n ps m := by
  induction h with
  | nil => exact .nil
  | ins hi _ ih => exact .ins hi ih
  | load hi ha _ ih => exact .load hi ha ih
  | setLocal _ ih => exact .setLocal ih
  | closure hb ha hbody _ _ ihb ih => exact .closure hb (hp.getElem? ha) hbody ihb ih
  | branch _ _ _ iht ihe ih => exact .branch iht ihe ih
  | skip hn _ ih => exact .skip hn ih

/-- More loads before the code do no harm. -/
theorem lift (h : Binds pool k n ps m) (hk : k ≤ k') : Binds pool k' n ps m := by
  induction h generalizing k' with
  | nil => exact .nil
  | ins hi hr _ => exact .ins hi hr
  | load hi ha _ ih => exact .load hi ha (ih (Nat.succ_le_succ hk))
  | setLocal hr _ => exact .setLocal hr
  | closure hb ha hbody hbinds hr _ _ => exact .closure (Nat.le_trans hb hk) ha hbody hbinds hr
  | branch ht he hr _ _ _ => exact .branch ht he hr
  | skip hn hr _ => exact .skip hn hr

theorem append (h : Binds pool k n ps n') (h' : Binds pool 0 n' qs m) :
    Binds pool k n (ps ++ qs) m := by
  induction h with
  | nil => exact h'.lift (Nat.zero_le _)
  | ins hi _ ih => exact .ins hi (ih h')
  | load hi ha _ ih => exact .load hi ha (ih h')
  | setLocal _ ih => exact .setLocal (ih h')
  | closure hb ha hbody hbinds _ _ ih => exact .closure hb ha hbody hbinds (ih h')
  | branch ht he _ _ _ ih => exact .branch ht he (ih h')
  | skip hn _ ih => exact .skip hn (ih h')

theorem snoc {i : Instruction} (h : Binds pool k n ps m) (hi : i.op.isDetached) :
    Binds pool k n (ps ++ [.ins i]) m := h.append (.ins hi .nil)

theorem of_concat {i : Instruction} (h : Binds pool k n (ps ++ [.ins i]) m)
    (hi : i.op.isDetached) : Binds pool k n ps m := by
  induction ps generalizing k n with
  | nil =>
    cases h with
    | ins _ hr =>
      cases hr
      exact .nil
    | load hc =>
      rcases i with ⟨op, operands⟩
      cases op <;> first | cases hi; done | cases hc
    | setLocal | closure => cases hi
  | cons p ps ih =>
    cases h with
    | ins hi' hr => exact .ins hi' (ih hr)
    | load hc ha hr => exact .load hc ha (ih hr)
    | setLocal hr => exact .setLocal (ih hr)
    | closure hb ha hbody hbinds hr => exact .closure hb ha hbody hbinds (ih hr)
    | branch ht he hr => exact .branch ht he (ih hr)
    | skip hn hr => exact .skip hn (ih hr)

/-- Loads read only locals that have had their turn. -/
theorem getLocal_lt {loads : List Instruction}
    (h : Binds pool k n (loads.map .ins ++ qs) m) (hl : ∀ i ∈ loads, i.op.isCapture) :
    ∀ i ∈ loads, i.op = .getLocal → i.operands.getD 0 0 < n := by
  induction loads generalizing k with
  | nil => exact List.forall_mem_nil _
  | cons i loads ih =>
    obtain ⟨hi, hl⟩ := List.forall_mem_cons.mp hl
    rw [List.map_cons, List.cons_append] at h
    cases h with
    | load _ hlt hr => exact List.forall_mem_cons.mpr ⟨hlt, ih hr hl⟩
    | ins hd =>
      rcases i with ⟨op, operands⟩
      cases op <;> first | cases hi; done | cases hd
    | setLocal | closure => cases hi

theorem range'_append_of_le {n n' m : Nat} (hn : n ≤ n') (hm : n' ≤ m) :
    List.range' n (n' - n) ++ List.range' n' (m - n') = List.range' n (m - n) := by
  obtain ⟨a, rfl⟩ := Nat.exists_eq_add_of_le hn
  obtain ⟨b, rfl⟩ := Nat.exists_eq_add_of_le hm
  rw [Nat.add_sub_cancel_left, Nat.add_sub_cancel_left, List.range'_append_1, Nat.add_assoc,
    Nat.add_sub_cancel_left]

/-- Locals are set in the order of their numbers. -/
theorem setLocals_eq (h : Binds pool k n ps m) {position : Nat} (hf : Fits position ps) :
    (locateAll position ps).filterMap Located.setLocal? = List.range' n (m - n) := by
  have hnone {l : Located} (hl : l.setLocal? = none) (rest : List Located) :
      (l :: rest).filterMap Located.setLocal? = rest.filterMap Located.setLocal? :=
    List.filterMap_cons_none hl
  induction h generalizing position with
  | nil =>
    rw [Nat.sub_self]
    rfl
  | ins hi _ ih => exact (hnone (Located.setLocal?_eq_none (.inl hi) _) _).trans (ih hf.2)
  | load hi _ _ ih => exact (hnone (Located.setLocal?_eq_none (.inr hi) _) _).trans (ih hf.2)
  | @setLocal k n m rest hr ih =>
    have hle := hr.le
    have hset : Located.setLocal? ⟨position, ⟨.setLocal, [n]⟩⟩ = some n := rfl
    rw [show m - n = m - (n + 1) + 1 by omega, List.range'_succ, ← ih hf.2]
    exact List.filterMap_cons_some hset
  | closure _ _ _ _ _ _ ih => exact (hnone rfl _).trans (ih hf.2)
  | branch ht he hr iht ihe ih =>
    obtain ⟨⟨hft, hfe, -⟩, hfr⟩ := hf
    rw [add_size_branch] at hfr
    rw [locateAll_branch, hnone rfl, List.filterMap_append, hnone rfl, List.filterMap_append,
      iht hft, ihe hfe, ih hfr, range'_append_of_le he.le hr.le,
      range'_append_of_le ht.le (Nat.le_trans he.le hr.le)]
  | skip => exact absurd hf.1 id

end Binds

end Piece

/-- A function that binds the locals behind its parameters in turn. -/
def Prototype.Binds (pool : Array Value) (proto : Prototype) : Prop :=
  ∃ body, proto.HasBody body ∧
    Piece.Binds pool 0 proto.numParams.toNat body proto.numLocals.toNat

namespace Prototype

variable {pool pool' : Array Value} {proto : Prototype}

theorem Binds.mono (h : proto.Binds pool) (hp : Extends pool pool') : proto.Binds pool' := by
  obtain ⟨body, hb, hbinds⟩ := h
  exact ⟨body, hb, hbinds.mono hp⟩

/-- Every local behind the parameters is set in one place, and the parameters in none. -/
theorem Binds.setLocals_eq (h : proto.Binds pool) :
    proto.code.setLocals =
      List.range' proto.numParams.toNat (proto.numLocals.toNat - proto.numParams.toNat) := by
  obtain ⟨body, hb, hbinds⟩ := h
  rw [Code.setLocals, hb.2, Code.listing_layout hb.1, List.toList_toArray]
  exact hbinds.setLocals_eq hb.1

theorem Binds.setLocals (h : proto.Binds pool) :
    proto.code.setLocals.Nodup ∧
      ∀ i ∈ proto.code.setLocals, proto.numParams ≤ i ∧ i < proto.numLocals := by
  rw [h.setLocals_eq]
  constructor
  · exact List.nodup_range'
  · intro i hi
    have := List.mem_range'_1.mp hi
    omega

end Prototype

end ClosureVM
