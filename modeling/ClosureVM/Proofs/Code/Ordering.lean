import ClosureVM.Proofs.Code.Boundaries
import ClosureVM.Proofs.Code.Checking

/-! Code that binds globals in order: each in its turn, and each read only behind its turn. -/
namespace ClosureVM

/-- Opcodes that neither touch globals nor refer to other code. -/
def Opcode.isLocal : Opcode → Bool
  | .getGlobal | .setGlobal | .closure => false
  | _ => true

namespace Piece

/-- Code that goes on where `n` globals have had their turn and leads to where `m` have. A
function reads no globals but those that have had their turn where its closure is made, and binds
none. -/
inductive Ordered (pool : Array Value) : Nat → List Piece → Nat → Prop
  | nil {n : Nat} : Ordered pool n [] n
  | ins {i : Instruction} {n m : Nat} {rest : List Piece} :
    i.op.isLocal → Ordered pool n rest m → Ordered pool n (.ins i :: rest) m
  | getGlobal {a n m : Nat} {rest : List Piece} :
    a < n → Ordered pool n rest m → Ordered pool n (.op .getGlobal [a] :: rest) m
  | setGlobal {n m : Nat} {rest : List Piece} :
    Ordered pool (n + 1) rest m → Ordered pool n (.op .setGlobal [n] :: rest) m
  | closure {a k n m : Nat} {proto : Prototype} {body rest : List Piece} :
    pool[a]? = some (.function proto) → proto.HasBody body → Ordered pool n body n →
      Ordered pool n rest m → Ordered pool n (.op .closure [a, k] :: rest) m
  | branch {n n₁ n₂ m : Nat} {t e rest : List Piece} :
    Ordered pool n t n₁ → Ordered pool n₁ e n₂ → Ordered pool n₂ rest m →
      Ordered pool n (.branch t e :: rest) m
  | skip {n n₁ m : Nat} {rest : List Piece} :
    n ≤ n₁ → Ordered pool n₁ rest m → Ordered pool n (.skip :: rest) m

variable {pool pool' : Array Value} {n n' m : Nat} {ps qs : List Piece}

theorem Ordered.le (h : Ordered pool n ps m) : n ≤ m := by
  induction h <;> omega

theorem Ordered.mono (h : Ordered pool n ps m) (hp : Extends pool pool') :
    Ordered pool' n ps m := by
  induction h with
  | nil => exact .nil
  | ins hi _ ih => exact .ins hi ih
  | getGlobal ha _ ih => exact .getGlobal ha ih
  | setGlobal _ ih => exact .setGlobal ih
  | closure ha hb _ _ ihb ih => exact .closure (hp.getElem? ha) hb ihb ih
  | branch _ _ _ iht ihe ih => exact .branch iht ihe ih
  | skip hn _ ih => exact .skip hn ih

theorem Ordered.append (h : Ordered pool n ps n') (h' : Ordered pool n' qs m) :
    Ordered pool n (ps ++ qs) m := by
  induction h with
  | nil => exact h'
  | ins hi _ ih => exact .ins hi (ih h')
  | getGlobal ha _ ih => exact .getGlobal ha (ih h')
  | setGlobal _ ih => exact .setGlobal (ih h')
  | closure ha hb hbody _ _ ih => exact .closure ha hb hbody (ih h')
  | branch ht he _ _ _ ih => exact .branch ht he (ih h')
  | skip hn _ ih => exact .skip hn (ih h')

theorem Ordered.of_append (h : Ordered pool n (ps ++ qs) m) :
    ∃ n', Ordered pool n ps n' ∧ Ordered pool n' qs m := by
  induction ps generalizing n with
  | nil => exact ⟨n, .nil, h⟩
  | cons p ps ih =>
    cases h with
    | ins hi hr =>
      obtain ⟨n', h₁, h₂⟩ := ih hr
      exact ⟨n', .ins hi h₁, h₂⟩
    | getGlobal ha hr =>
      obtain ⟨n', h₁, h₂⟩ := ih hr
      exact ⟨n', .getGlobal ha h₁, h₂⟩
    | setGlobal hr =>
      obtain ⟨n', h₁, h₂⟩ := ih hr
      exact ⟨n', .setGlobal h₁, h₂⟩
    | closure ha hb hbody hr =>
      obtain ⟨n', h₁, h₂⟩ := ih hr
      exact ⟨n', .closure ha hb hbody h₁, h₂⟩
    | branch ht he hr =>
      obtain ⟨n', h₁, h₂⟩ := ih hr
      exact ⟨n', .branch ht he h₁, h₂⟩
    | skip hn hr =>
      obtain ⟨n', h₁, h₂⟩ := ih hr
      exact ⟨n', .skip hn h₁, h₂⟩

/-- Code that binds no globals can stand further behind. -/
theorem Ordered.lift (h : Ordered pool n ps m) (hm : m ≤ n) {k : Nat} (hk : n ≤ k) :
    Ordered pool k ps k := by
  induction h generalizing k with
  | nil => exact .nil
  | ins hi _ ih => exact .ins hi (ih hm hk)
  | getGlobal ha _ ih => exact .getGlobal (by omega) (ih hm hk)
  | setGlobal hr _ =>
    have := hr.le
    omega
  | closure ha hb _ _ ihb ih => exact .closure ha hb (ihb (Nat.le_refl _) hk) (ih hm hk)
  | branch ht he hr iht ihe ih =>
    have h₁ := ht.le
    have h₂ := he.le
    have h₃ := hr.le
    exact .branch (iht (by omega) hk) (ihe (by omega) (by omega)) (ih (by omega) (by omega))
  | skip hn hr ih =>
    have := hr.le
    exact .skip (Nat.le_refl _) (ih (by omega) (by omega))

theorem Ordered.snoc {i : Instruction} (h : Ordered pool n ps m) (hi : i.op.isLocal) :
    Ordered pool n (ps ++ [.ins i]) m := h.append (.ins hi .nil)

/-- Globals whose numbers can be written have places. -/
theorem Ordered.le_numGlobals (h : Ordered pool n ps m) {position : Nat} (hf : Fits position ps)
    (hn : n ≤ numGlobals) : m ≤ numGlobals := by
  induction h generalizing position with
  | nil => exact hn
  | ins _ _ ih | getGlobal _ _ ih => exact ih hf.2 hn
  | setGlobal _ ih =>
    cases hf.1.2 with
    | cons hlt _ => exact ih hf.2 hlt
  | closure _ _ _ _ _ ih => exact ih hf.2 hn
  | branch _ _ _ iht ihe ih => exact ih hf.2 (ihe hf.1.2.1 (iht hf.1.1 hn))
  | skip _ _ _ => exact absurd hf.1 id

/-- Globals that the code names have their turn by its end. -/
theorem Ordered.global_lt (h : Ordered pool n ps m) {position : Nat} :
    ∀ l ∈ locateAll position ps, ∀ a,
      l.instruction = ⟨.getGlobal, [a]⟩ ∨ l.instruction = ⟨.setGlobal, [a]⟩ → a < m := by
  induction h generalizing position with
  | nil => exact List.forall_mem_nil _
  | @ins i n m rest hi hr ih =>
    refine List.forall_mem_cons.mpr ⟨fun a ha => ?_, ih⟩
    obtain rfl | rfl := ha <;> cases hi
  | getGlobal ha hr ih =>
    refine List.forall_mem_cons.mpr ⟨fun a ha => ?_, ih⟩
    obtain ⟨⟨⟩⟩ | ⟨⟨⟩⟩ := ha
    exact Nat.lt_of_lt_of_le ‹_› hr.le
  | setGlobal hr ih =>
    refine List.forall_mem_cons.mpr ⟨fun a ha => ?_, ih⟩
    obtain ⟨⟨⟩⟩ | ⟨⟨⟩⟩ := ha
    exact hr.le
  | closure _ _ _ hr _ ih =>
    refine List.forall_mem_cons.mpr ⟨fun a ha => ?_, ih⟩
    obtain ⟨⟨⟩⟩ | ⟨⟨⟩⟩ := ha
  | branch ht he hr iht ihe ih =>
    have h₁ := he.le
    have h₂ := hr.le
    rw [locateAll_branch]
    intro l hl a ha
    simp only [List.mem_cons, List.mem_append] at hl
    obtain rfl | hl | rfl | hl | hl := hl
    · obtain ⟨⟨⟩⟩ | ⟨⟨⟩⟩ := ha
    · have := iht l hl a ha
      omega
    · obtain ⟨⟨⟩⟩ | ⟨⟨⟩⟩ := ha
    · have := ihe l hl a ha
      omega
    · exact ih l hl a ha
  | skip _ _ ih => exact ih

end Piece

end ClosureVM
