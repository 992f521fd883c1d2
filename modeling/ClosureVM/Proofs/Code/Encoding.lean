import ClosureVM.Code.Listing
import Mathlib.Algebra.Ring.Int.Defs
import Mathlib.Algebra.Ring.Nat
import Mathlib.Data.List.Forall2

/-! Instructions and their bytes: what is written is read back. -/
namespace ClosureVM

theorem exists_of_forall₂_left {α β : Type} {R : α → β → Prop} {l : List α} {l' : List β}
    (h : List.Forall₂ R l l') {a : α} (ha : a ∈ l) : ∃ b ∈ l', R a b := by
  induction h with
  | nil => cases ha
  | cons hr _ ih =>
    obtain rfl | ha := List.mem_cons.mp ha
    · exact ⟨_, List.mem_cons_self, hr⟩
    · obtain ⟨b, hb, hr⟩ := ih ha
      exact ⟨b, List.mem_cons_of_mem _ hb, hr⟩

theorem bigEndian_succ (width n : Nat) :
    bigEndian (width + 1) n = UInt8.ofNat (n / 256 ^ width) :: bigEndian width n := rfl

private theorem foldl_bigEndian (width n m : Nat) :
    (bigEndian width n).foldl (fun n b => 256 * n + b.toNat) m =
      256 ^ width * m + n % 256 ^ width := by
  induction width generalizing m with
  | zero => simp [bigEndian, Nat.mod_one]
  | succ width ih =>
    rw [bigEndian_succ, List.foldl_cons, ih, Nat.pow_succ, Nat.mod_mul]
    simp only [UInt8.toNat_ofNat']
    grind

private theorem ofBigEndian_bigEndian {width n : Nat} (h : n < 256 ^ width) :
    ofBigEndian (bigEndian width n) = n := by
  rw [ofBigEndian, foldl_bigEndian, Nat.mul_zero, Nat.zero_add, Nat.mod_eq_of_lt h]

theorem Opcode.size_eq (op : Opcode) : op.size = 1 + op.widths.sum := by cases op <;> rfl

namespace Instruction

/-- Every operand lies within its width. -/
def Encodable (i : Instruction) : Prop :=
  List.Forall₂ (fun width n : Nat => n < 256 ^ width) i.op.widths i.operands

/-- Operands behind one another, highest byte first. -/
def operandBytes : (widths operands : List Nat) → List UInt8
  | width :: widths, n :: operands => bigEndian width n ++ operandBytes widths operands
  | _, _ => []

def bytes (i : Instruction) : List UInt8 := i.op.code :: operandBytes i.op.widths i.operands

private theorem length_operandBytes {widths operands : List Nat} {R : Nat → Nat → Prop}
    (h : List.Forall₂ R widths operands) : (operandBytes widths operands).length = widths.sum := by
  induction h with
  | nil => rfl
  | cons _ _ ih => simp [operandBytes, ih]

theorem Encodable.length_bytes {i : Instruction} (h : i.Encodable) : i.bytes.length = i.size := by
  have hl := length_operandBytes h
  simp only [bytes, List.length_cons, size, Opcode.size_eq]
  omega

end Instruction

namespace Opcode

theorem natCast_pow_width (width : Nat) : ((256 ^ width : Nat) : Int) = 256 ^ width :=
  Int.natCast_pow 256 width

private theorem operandsBytes_ok {op : Opcode} {widths : List Nat} {operands : List Int}
    (hl : operands.length = widths.length) {bytes : List UInt8}
    (h : op.operandsBytes widths (operands.map .int) = .ok bytes) :
    ∃ ns : List Nat, operands = ns.map (fun n : Nat => (n : Int)) ∧
      List.Forall₂ (fun width n : Nat => n < 256 ^ width) widths ns ∧
      bytes = Instruction.operandBytes widths ns := by
  induction widths generalizing operands bytes with
  | nil =>
    obtain rfl : operands = [] := List.length_eq_zero_iff.mp hl
    simp only [operandsBytes, Except.ok.injEq] at h
    exact ⟨[], rfl, .nil, h.symm⟩
  | cons width widths ih =>
    cases operands with
    | nil => simp at hl
    | cons n operands =>
      simp only [List.map_cons, operandsBytes, operandBytes] at h
      split at h
      · rename_i hn
        cases hr : op.operandsBytes widths (operands.map .int) with
        | error e => simp [hr, bind, Except.bind] at h
        | ok rest =>
          simp only [hr, bind, Except.bind, pure, Except.pure, Except.ok.injEq] at h
          obtain ⟨ns, rfl, hns, rfl⟩ := ih (by simpa using hl) hr
          refine ⟨n.toNat :: ns, ?_, .cons ?_ hns, h.symm⟩
          · simp [Int.toNat_of_nonneg hn.1]
          · have hc : n < 256 ^ width := hn.2
            rwa [← Int.toNat_of_nonneg hn.1, ← natCast_pow_width, Int.ofNat_lt] at hc
      · simp [bind, Except.bind] at h

private theorem operandsBytes_natCast (op : Opcode) {widths operands : List Nat}
    (h : List.Forall₂ (fun width n : Nat => n < 256 ^ width) widths operands) :
    op.operandsBytes widths (operands.map fun n : Nat => .int n) =
      .ok (Instruction.operandBytes widths operands) := by
  induction h with
  | nil => rfl
  | @cons width n widths operands hn _ ih =>
    have hlt : (n : Int) < 256 ^ width := by rwa [← natCast_pow_width, Int.ofNat_lt]
    have hn' : (0 : Int) ≤ n ∧ (n : Int) < Int.pow 256 width := ⟨by omega, hlt⟩
    simp only [List.map_cons, operandsBytes, operandBytes, if_pos hn', ih]
    rfl

theorem encode_ok {op : Opcode} {operands : List Int} {bytes : List UInt8}
    (h : op.encode (operands.map .int) = .ok bytes) :
    ∃ ns : List Nat, operands = ns.map (fun n : Nat => (n : Int)) ∧
      Instruction.Encodable ⟨op, ns⟩ ∧ bytes = Instruction.bytes ⟨op, ns⟩ := by
  unfold encode at h
  split at h
  · rename_i hl
    cases hr : op.operandsBytes op.widths (operands.map .int) with
    | error e => simp [hr, bind, Except.bind] at h
    | ok rest =>
      simp only [hr, bind, Except.bind, pure, Except.pure, Except.ok.injEq] at h
      obtain ⟨ns, hns, hf, rfl⟩ := operandsBytes_ok (by simpa using hl) hr
      exact ⟨ns, hns, hf, h.symm⟩
  · simp at h

theorem encode_natCast {i : Instruction} (h : i.Encodable) :
    i.op.encode (i.operands.map fun n : Nat => .int n) = .ok i.bytes := by
  have hl : i.operands.length = i.op.widths.length := (List.Forall₂.length_eq h).symm
  simp only [encode, List.length_map, hl, if_true, operandsBytes_natCast i.op h]
  rfl

end Opcode

namespace Code

/-- The whole instruction at an offset, if there is one. -/
def fetch? (code : Code) (offset : Nat) : Option Instruction :=
  code[offset]?.bind fun b => (code.decode offset b).toOption

private theorem slice_eq {code : Code} {front middle back : List UInt8}
    (h : code.toList = front ++ middle ++ back) {lo hi : Nat} (hlo : lo = front.length)
    (hhi : hi = front.length + middle.length) : code.slice lo hi = middle := by
  have hs : code.size = front.length + middle.length + back.length := by
    rw [← Array.length_toList, h]; simp [Nat.add_assoc]
  subst hlo hhi
  rw [slice, bound_natCast, bound_natCast, Array.toList_extract, h,
    Nat.min_eq_left (by omega), Nat.min_eq_left (by omega)]
  simp [List.extract]

private theorem readOperands_eq {code : Code} {widths operands : List Nat} (front : List UInt8)
    {back : List UInt8}
    (hf : List.Forall₂ (fun width n : Nat => n < 256 ^ width) widths operands)
    (h : code.toList = front ++ Instruction.operandBytes widths operands ++ back) {start : Int}
    (hs : start = front.length) : code.readOperands start widths = operands := by
  induction hf generalizing front start with
  | nil => rfl
  | @cons width n widths operands hn hf ih =>
    simp only [Instruction.operandBytes] at h
    have hr : code.readOperand start width = n := by
      have hm : code.slice (front.length : Nat) ((front.length + width : Nat) : Int) =
          bigEndian width n :=
        slice_eq (by simpa [List.append_assoc] using h) rfl (by simp)
      subst hs
      rw [readOperand, ← Int.natCast_add, hm, ofBigEndian_bigEndian hn]
    have ht : code.readOperands (start + width) widths = operands := by
      refine ih (front ++ bigEndian width n) (by simpa [List.append_assoc] using h) ?_
      simp [hs]
    rw [readOperands, hr, ht]

theorem fetch?_eq {code : Code} {i : Instruction} {front back : List UInt8} (hi : i.Encodable)
    (h : code.toList = front ++ i.bytes ++ back) : code.fetch? front.length = some i := by
  have hb : code[front.length]? = some i.op.code := by
    rw [← Array.getElem?_toList, h]
    simp [Instruction.bytes]
  have hs : front.length + i.op.size ≤ code.size := by
    have hl := hi.length_bytes
    rw [← Array.length_toList, h, List.length_append, List.length_append, hl]
    simp only [Instruction.size]
    omega
  have hr : code.readOperands (front.length + 1 : Nat) i.op.widths = i.operands :=
    readOperands_eq (front ++ [i.op.code]) hi
      (by simpa [Instruction.bytes, List.append_assoc] using h) (by simp)
  simp only [fetch?, hb, Option.bind_some, decode, Opcode.ofByte?_code, hs, if_true,
    instructionAt, hr, Except.toOption]

/-- What a fetched instruction says about the bytes at its offset. -/
theorem fetch?_eq_some {code : Code} {offset : Nat} {i : Instruction}
    (h : code.fetch? offset = some i) :
    ∃ b, code[offset]? = some b ∧ Opcode.ofByte? b = some i.op ∧
      offset + i.size ≤ code.size ∧ code.instructionAt i.op offset = i := by
  unfold fetch? at h
  obtain ⟨b, hb, hd⟩ := Option.bind_eq_some_iff.mp h
  refine ⟨b, hb, ?_⟩
  unfold decode at hd
  split at hd
  · simp [Except.toOption] at hd
  · rename_i op hop
    split at hd
    · rename_i hs
      have he : code.instructionAt op offset = i := by simpa [Except.toOption] using hd
      have ho : i.op = op := by rw [← he]; rfl
      subst ho
      exact ⟨hop, hs, he⟩
    · simp [Except.toOption] at hd

end Code
end ClosureVM
