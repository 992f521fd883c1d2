import ClosureVM.Proofs.Code.Encoding

/-! Code whose jumps are still structured, and the bytes it is laid out as. -/
namespace ClosureVM

/-- Opcodes that neither jump nor are part of a choice. -/
def Opcode.isPlain : Opcode → Bool
  | .jump | .jumpNotTruthy => false
  | _ => true

/-- A plain instruction, or a choice between two pieces of code: a conditional jump, the first
part, a jump over the second part, and that part. `skip` is the jump that is still to come once
the first part has been entered; it never stands in code at rest. -/
inductive Piece
  | ins (i : Instruction)
  | branch (consequence alternative : List Piece)
  | skip

namespace Piece

/-- An instruction by its opcode and operands. -/
abbrev op (op : Opcode) (operands : List Nat := []) : Piece := .ins ⟨op, operands⟩

/-- Induction on code at rest and on continuations: parts of a choice come with what follows. -/
@[elab_as_elim]
theorem list_induction {motive : List Piece → Prop} (nil : motive [])
    (ins : ∀ i rest, motive rest → motive (.ins i :: rest))
    (branch : ∀ t e rest, motive t → motive e → motive rest → motive (.branch t e :: rest))
    (skip : ∀ rest, motive rest → motive (.skip :: rest)) (ps : List Piece) : motive ps :=
  @Piece.rec_1 (fun p => ∀ rest, motive rest → motive (p :: rest)) motive
    ins (fun t e ht he rest hr => branch t e rest ht he hr) skip nil
    (fun _ rest hp hr => hp rest hr) ps

mutual

def size : Piece → Nat
  | .ins i => i.size
  | .branch t e => 3 + totalSize t + (3 + totalSize e)
  | .skip => 0

def totalSize : List Piece → Nat
  | [] => 0
  | p :: rest => p.size + totalSize rest

end

@[simp] theorem totalSize_append (ps qs : List Piece) :
    totalSize (ps ++ qs) = totalSize ps + totalSize qs := by
  induction ps with
  | nil => simp [totalSize]
  | cons p ps ih => simp [totalSize, ih, Nat.add_assoc]

/-- Where code behind a choice starts. -/
theorem add_size_branch (position : Nat) (t e : List Piece) :
    position + size (.branch t e) = position + 3 + totalSize t + 3 + totalSize e := by
  simp only [size]
  omega

/-- The conditional jump over a first part of `n` bytes. -/
def jumpOver (position n : Nat) : Instruction := ⟨.jumpNotTruthy, [position + 3 + n + 3]⟩

/-- The jump over a second part of `n` bytes. -/
def jumpPast (position n : Nat) : Instruction := ⟨.jump, [position + 3 + n]⟩

mutual

/-- The bytes of a piece that starts at `position`. -/
def bytes (position : Nat) : Piece → List UInt8
  | .ins i => i.bytes
  | .branch t e =>
    (jumpOver position (totalSize t)).bytes ++ layout (position + 3) t ++
      ((jumpPast (position + 3 + totalSize t) (totalSize e)).bytes ++
        layout (position + 3 + totalSize t + 3) e)
  | .skip => []

def layout (position : Nat) : List Piece → List UInt8
  | [] => []
  | p :: rest => p.bytes position ++ layout (position + p.size) rest

end

mutual

/-- The operands of a piece that starts at `position`, jump targets among them, can be
written. -/
def Fit (position : Nat) : Piece → Prop
  | .ins i => i.op.isPlain ∧ i.Encodable
  | .branch t e =>
    Fits (position + 3) t ∧ Fits (position + 3 + totalSize t + 3) e ∧
      position + 3 + totalSize t + 3 + totalSize e < 256 ^ 2
  | .skip => False

def Fits (position : Nat) : List Piece → Prop
  | [] => True
  | p :: rest => p.Fit position ∧ Fits (position + p.size) rest

end

theorem encodable_jumpOver {position n : Nat} (h : position + 3 + n + 3 < 256 ^ 2) :
    (jumpOver position n).Encodable := .cons h .nil

private theorem encodable_jumpPast {position n : Nat} (h : position + 3 + n < 256 ^ 2) :
    (jumpPast position n).Encodable := .cons h .nil

theorem layout_append (position : Nat) (ps qs : List Piece) :
    layout position (ps ++ qs) = layout position ps ++ layout (position + totalSize ps) qs := by
  induction ps generalizing position with
  | nil => simp [layout, totalSize]
  | cons p ps ih => simp [layout, totalSize, ih, Nat.add_assoc]

theorem fits_append {position : Nat} {ps qs : List Piece} :
    Fits position (ps ++ qs) ↔ Fits position ps ∧ Fits (position + totalSize ps) qs := by
  induction ps generalizing position with
  | nil => simp [Fits, totalSize]
  | cons p ps ih => simp [Fits, totalSize, ih, and_assoc, Nat.add_assoc]

/-- The two jumps of a choice can be written. -/
theorem Fit.encodable {position : Nat} {t e : List Piece} (h : (branch t e).Fit position) :
    (jumpOver position (totalSize t)).Encodable ∧
      (jumpPast (position + 3 + totalSize t) (totalSize e)).Encodable := by
  simp only [Fit] at h
  exact ⟨encodable_jumpOver (by omega), encodable_jumpPast (by omega)⟩

theorem length_layout {position : Nat} {ps : List Piece} (h : Fits position ps) :
    (layout position ps).length = totalSize ps := by
  induction ps using list_induction generalizing position with
  | nil => simp [layout, totalSize]
  | ins i rest ih =>
    simp only [Fits, Fit] at h
    have hi := h.1.2.length_bytes
    rw [layout, List.length_append, ih h.2, bytes, hi, totalSize, size]
  | branch t e rest ht he ih =>
    have hj := h.1.encodable
    simp only [Fits, Fit] at h
    have h₁ := hj.1.length_bytes
    have h₂ := hj.2.length_bytes
    rw [layout, List.length_append, ih h.2, bytes, totalSize, size]
    simp only [List.length_append, h₁, h₂, ht h.1.1, he h.1.2.1]
    rfl
  | skip rest ih => exact absurd h.1 id

/-- Code that can be written can be written further to the front. -/
theorem Fits.mono {position lower : Nat} {ps : List Piece} (h : Fits position ps)
    (hl : lower ≤ position) : Fits lower ps := by
  induction ps using list_induction generalizing position lower with
  | nil => trivial
  | ins i rest ih => exact ⟨h.1, ih h.2 (by simp only [size]; omega)⟩
  | branch t e rest ht he ih =>
    have hb := h.1
    simp only [Fit] at hb
    refine ⟨⟨ht hb.1 (by omega), he hb.2.1 (by omega), by omega⟩, ih h.2 ?_⟩
    simp only [size]
    omega
  | skip rest ih => exact absurd h.1 id

end Piece

/-- Bytes determine the instruction they begin with. -/
theorem Instruction.bytes_append_inj {i j : Instruction} {xs ys : List UInt8}
    (hi : i.Encodable) (hj : j.Encodable) (h : i.bytes ++ xs = j.bytes ++ ys) :
    i = j ∧ xs = ys := by
  have h₁ : Code.fetch? (i.bytes ++ xs).toArray ([] : List UInt8).length = some i :=
    Code.fetch?_eq hi (by rw [List.nil_append])
  have h₂ : Code.fetch? (i.bytes ++ xs).toArray ([] : List UInt8).length = some j :=
    Code.fetch?_eq hj (by rw [List.nil_append]; exact h)
  obtain rfl : i = j := Option.some.inj (h₁.symm.trans h₂)
  exact ⟨rfl, List.append_cancel_left h⟩

namespace Piece

theorem totalSize_pos {position : Nat} {p : Piece} {rest : List Piece}
    (h : Fits position (p :: rest)) : 0 < totalSize (p :: rest) := by
  cases p with
  | ins i =>
    have hp := i.op.size_pos
    simp only [totalSize, size, Instruction.size]
    omega
  | branch t e =>
    simp only [totalSize, size]
    omega
  | skip => exact absurd h.1 id

/-- Structured code can be recovered from its bytes. -/
theorem layout_inj {position : Nat} {ps qs : List Piece} {xs ys : List UInt8}
    (hp : Fits position ps) (hq : Fits position qs) (hs : totalSize ps = totalSize qs)
    (h : layout position ps ++ xs = layout position qs ++ ys) : ps = qs ∧ xs = ys := by
  induction ps using list_induction generalizing position qs xs ys with
  | nil =>
    cases qs with
    | nil => exact ⟨rfl, by simpa [layout] using h⟩
    | cons q qs =>
      have := totalSize_pos hq
      simp only [totalSize] at hs this
      omega
  | ins i rest ih =>
    cases qs with
    | nil =>
      have := totalSize_pos hp
      simp only [totalSize] at hs this
      omega
    | cons q qs =>
      simp only [Fits, Fit] at hp
      cases q with
      | ins j =>
        simp only [Fits, Fit] at hq
        simp only [layout, bytes, List.append_assoc] at h
        obtain ⟨rfl, hr⟩ := Instruction.bytes_append_inj hp.1.2 hq.1.2 h
        simp only [totalSize, size] at hs
        obtain ⟨rfl, rfl⟩ := ih hp.2 hq.2 (by omega) hr
        exact ⟨rfl, rfl⟩
      | branch t e =>
        simp only [layout, bytes, List.append_assoc] at h
        obtain ⟨rfl, -⟩ := Instruction.bytes_append_inj hp.1.2 hq.1.encodable.1 h
        simp [jumpOver, Opcode.isPlain] at hp
      | skip => exact absurd hq.1 id
  | branch t e rest ht he ih =>
    cases qs with
    | nil =>
      have := totalSize_pos hp
      simp only [totalSize] at hs this
      omega
    | cons q qs =>
      cases q with
      | ins j =>
        simp only [Fits, Fit] at hq
        simp only [layout, bytes, List.append_assoc] at h
        obtain ⟨rfl, -⟩ := Instruction.bytes_append_inj hp.1.encodable.1 hq.1.2 h
        simp [jumpOver, Opcode.isPlain] at hq
      | branch t' e' =>
        have hj := hp.1.encodable
        have hj' := hq.1.encodable
        simp only [Fits, Fit] at hp hq
        simp only [layout, bytes, List.append_assoc] at h
        obtain ⟨h₁, h⟩ := Instruction.bytes_append_inj hj.1 hj'.1 h
        have hts : totalSize t = totalSize t' := by
          simp only [jumpOver, Instruction.mk.injEq, List.cons.injEq] at h₁
          omega
        obtain ⟨rfl, h⟩ := ht hp.1.1 hq.1.1 hts h
        obtain ⟨h₂, h⟩ := Instruction.bytes_append_inj hj.2 hj'.2 h
        have hes : totalSize e = totalSize e' := by
          simp only [jumpPast, Instruction.mk.injEq, List.cons.injEq] at h₂
          omega
        obtain ⟨rfl, h⟩ := he hp.1.2.1 hq.1.2.1 hes h
        simp only [totalSize] at hs
        obtain ⟨rfl, rfl⟩ := ih hp.2 hq.2 (by omega) h
        exact ⟨rfl, rfl⟩
      | skip => exact absurd hq.1 id
  | skip rest ih => exact absurd hp.1 id

end Piece
end ClosureVM
