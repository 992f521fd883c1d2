import ClosureVM.Proofs.Code.Layout
import ClosureVM.Value.Basic

/-! What is still to be executed from an offset on. -/
namespace ClosureVM

namespace Code

/-- The given bytes stand in the code at `position`. -/
def Holds (code : Code) (position : Nat) (bytes : List UInt8) : Prop :=
  ∃ front back, front.length = position ∧ code.toList = front ++ bytes ++ back

theorem Holds.left {code : Code} {position : Nat} {xs ys : List UInt8}
    (h : code.Holds position (xs ++ ys)) : code.Holds position xs := by
  obtain ⟨front, back, hp, h⟩ := h
  exact ⟨front, ys ++ back, hp, by simpa only [List.append_assoc] using h⟩

theorem Holds.right {code : Code} {position : Nat} {xs ys : List UInt8}
    (h : code.Holds position (xs ++ ys)) : code.Holds (position + xs.length) ys := by
  obtain ⟨front, back, rfl, h⟩ := h
  exact ⟨front ++ xs, back, List.length_append, by simpa only [List.append_assoc] using h⟩

theorem Holds.fetch? {code : Code} {position : Nat} {i : Instruction}
    (h : code.Holds position i.bytes) (hi : i.Encodable) : code.fetch? position = some i := by
  obtain ⟨front, back, rfl, h⟩ := h
  exact fetch?_eq hi h

end Code

/-- The bytes from `ip` on are executed like `rest`, and every jump on the way goes forward. -/
inductive Follows (code : Code) : Nat → List Piece → Prop
  | done : Follows code code.size []
  | ins {ip : Nat} {i : Instruction} {rest : List Piece} :
    code.fetch? ip = some i → i.op.isPlain → Follows code (ip + i.size) rest →
      Follows code ip (.ins i :: rest)
  | branch {ip target : Nat} {t e rest : List Piece} :
    code.fetch? ip = some ⟨.jumpNotTruthy, [target]⟩ → ip + 3 ≤ target →
      Follows code (ip + 3) (t ++ .skip :: rest) → Follows code target (e ++ rest) →
      Follows code ip (.branch t e :: rest)
  | skip {ip target : Nat} {rest : List Piece} :
    code.fetch? ip = some ⟨.jump, [target]⟩ → ip + 3 ≤ target → Follows code target rest →
      Follows code ip (.skip :: rest)

namespace Follows

theorem le_size {code : Code} {ip : Nat} {rest : List Piece} (h : Follows code ip rest) :
    ip ≤ code.size := by
  induction h <;> omega

theorem lt_size {code : Code} {ip : Nat} {p : Piece} {rest : List Piece}
    (h : Follows code ip (p :: rest)) : ip < code.size := by
  cases h with
  | ins _ _ hr =>
    rename_i i _ _
    have hp := i.op.size_pos
    have hl := hr.le_size
    simp only [Instruction.size] at hl
    omega
  | branch _ _ hr => have := hr.le_size; omega
  | skip _ _ hr => have := hr.le_size; omega

theorem eq_size {code : Code} {ip : Nat} (h : Follows code ip []) : ip = code.size := by
  cases h
  rfl

theorem of_ins {code : Code} {ip : Nat} {i : Instruction} {rest : List Piece}
    (h : Follows code ip (.ins i :: rest)) :
    code.fetch? ip = some i ∧ i.op.isPlain ∧ Follows code (ip + i.size) rest := by
  cases h with
  | ins hi hp hr => exact ⟨hi, hp, hr⟩

theorem of_branch {code : Code} {ip : Nat} {t e rest : List Piece}
    (h : Follows code ip (.branch t e :: rest)) :
    ∃ target, code.fetch? ip = some ⟨.jumpNotTruthy, [target]⟩ ∧ ip + 3 ≤ target ∧
      Follows code (ip + 3) (t ++ .skip :: rest) ∧ Follows code target (e ++ rest) := by
  cases h with
  | branch hi hl ht he => exact ⟨_, hi, hl, ht, he⟩

theorem of_skip {code : Code} {ip : Nat} {rest : List Piece}
    (h : Follows code ip (.skip :: rest)) :
    ∃ target, code.fetch? ip = some ⟨.jump, [target]⟩ ∧ ip + 3 ≤ target ∧
      Follows code target rest := by
  cases h with
  | skip hi hl hr => exact ⟨_, hi, hl, hr⟩

/-- Where the parts of a choice stand. -/
theorem holds_branch {code : Code} {position : Nat} {t e ps : List Piece}
    (h : code.Holds position (Piece.layout position (.branch t e :: ps)))
    (hf : Piece.Fits position (.branch t e :: ps)) :
    code.fetch? position = some (Piece.jumpOver position (Piece.totalSize t)) ∧
      code.Holds (position + 3) (Piece.layout (position + 3) t) ∧
      code.fetch? (position + 3 + Piece.totalSize t) =
        some (Piece.jumpPast (position + 3 + Piece.totalSize t) (Piece.totalSize e)) ∧
      code.Holds (position + 3 + Piece.totalSize t + 3)
        (Piece.layout (position + 3 + Piece.totalSize t + 3) e) ∧
      code.Holds (position + 3 + Piece.totalSize t + 3 + Piece.totalSize e)
        (Piece.layout (position + 3 + Piece.totalSize t + 3 + Piece.totalSize e) ps) := by
  obtain ⟨hj, hj'⟩ := hf.1.encodable
  obtain ⟨⟨ht, he, -⟩, -⟩ := hf
  have hl : (Piece.jumpOver position (Piece.totalSize t)).bytes.length = 3 := hj.length_bytes
  have hl' : (Piece.jumpPast (position + 3 + Piece.totalSize t)
    (Piece.totalSize e)).bytes.length = 3 := hj'.length_bytes
  have hlt := Piece.length_layout ht
  have hle := Piece.length_layout he
  have hs := Piece.add_size_branch position t e
  rw [Piece.layout, hs, Piece.bytes] at h
  have h₁ := h.left.left
  have h₂ := h₁.right
  have h₃ := h.left.right
  have h₄ := h₃.right
  have h₅ := h.right
  simp only [List.length_append, hl, hl', hlt, hle] at h₂ h₃ h₄ h₅
  simp only [← Nat.add_assoc] at h₃ h₄ h₅
  exact ⟨h₁.left.fetch? hj, h₂, h₃.left.fetch? hj', h₄, h₅⟩

/-- Laid out code is executed piece by piece. -/
theorem of_layout {code : Code} {position : Nat} {ps rest : List Piece}
    (h : code.Holds position (Piece.layout position ps)) (hf : Piece.Fits position ps)
    (hr : Follows code (position + Piece.totalSize ps) rest) :
    Follows code position (ps ++ rest) := by
  induction ps using Piece.list_induction generalizing position rest with
  | nil => exact hr
  | ins i ps ih =>
    obtain ⟨⟨hp, hi⟩, hf⟩ := hf
    have hl := hi.length_bytes
    rw [Piece.layout, Piece.bytes] at h
    have hn := h.right
    rw [hl] at hn
    rw [Piece.totalSize, ← Nat.add_assoc] at hr
    exact .ins (h.left.fetch? hi) hp (ih hn hf hr)
  | branch t e ps iht ihe ih =>
    obtain ⟨hj, ht, hj', he, hps⟩ := holds_branch h hf
    have hs := Piece.add_size_branch position t e
    obtain ⟨⟨hft, hfe, -⟩, hf⟩ := hf
    rw [hs] at hf
    rw [Piece.totalSize, ← Nat.add_assoc, hs] at hr
    have hrest := ih hps hf hr
    refine .branch hj (by omega) (iht ht hft ?_) (ihe he hfe hrest)
    exact .skip hj' (by omega) hrest
  | skip ps ih => exact absurd hf.1 id

end Follows

namespace Prototype

/-- The function's code is the layout of `ps`. -/
def HasBody (p : Prototype) (ps : List Piece) : Prop :=
  Piece.Fits 0 ps ∧ p.code = (Piece.layout 0 ps).toArray

theorem HasBody.follows {p : Prototype} {ps : List Piece} (h : p.HasBody ps) :
    Follows p.code 0 ps := by
  have hl : Piece.totalSize ps = p.code.size := by
    rw [h.2, List.size_toArray, Piece.length_layout h.1]
  have hr : Follows p.code (0 + Piece.totalSize ps) [] := by
    rw [Nat.zero_add, hl]
    exact .done
  have hh : p.code.Holds 0 (Piece.layout 0 ps) := ⟨[], [], rfl, by simp [h.2]⟩
  simpa using Follows.of_layout hh h.1 hr

/-- A function has one body only. -/
theorem HasBody.unique {p : Prototype} {ps qs : List Piece} (hp : p.HasBody ps)
    (hq : p.HasBody qs) : ps = qs := by
  have hl : Piece.layout 0 ps = Piece.layout 0 qs := by
    have h := hp.2.symm.trans hq.2
    simpa using h
  have hs : Piece.totalSize ps = Piece.totalSize qs := by
    rw [← Piece.length_layout hp.1, ← Piece.length_layout hq.1, hl]
  exact (Piece.layout_inj hp.1 hq.1 hs (congrArg (· ++ []) hl)).1

open Classical in
/-- The structured code of a function, if its bytes are a layout. -/
noncomputable def body? (p : Prototype) : Option (List Piece) :=
  if h : ∃ ps, p.HasBody ps then some h.choose else none

theorem HasBody.body?_eq {p : Prototype} {ps : List Piece} (h : p.HasBody ps) :
    p.body? = some ps := by
  have he : ∃ ps, p.HasBody ps := ⟨ps, h⟩
  rw [body?, dif_pos he, he.choose_spec.unique h]

theorem hasBody_of_body?_eq {p : Prototype} {ps : List Piece} (h : p.body? = some ps) :
    p.HasBody ps := by
  unfold body? at h
  split at h
  · rename_i he
    obtain rfl : he.choose = ps := Option.some.inj h
    exact he.choose_spec
  · cases h

end Prototype
end ClosureVM
