import ClosureVM.Proofs.Code.Scanning
import ClosureVM.Proofs.Compiler.Choices

/-! Code under construction that consists of whole instructions, with a true record of its last
one. Instructions can be added and targets filled in; the last instruction can be taken off again
only where the record before it is known too. -/
namespace ClosureVM

namespace Instruction

/-- The record of the last of these instructions, which stand one behind the other. -/
def record? (is : List Instruction) : Option Emitted :=
  is.getLast?.map fun i => ⟨i.op, (stream is.dropLast).length⟩

theorem record?_concat (is : List Instruction) (i : Instruction) :
    record? (is ++ [i]) = some ⟨i.op, (stream is).length⟩ := by
  simp [record?]

theorem stream_append (is js : List Instruction) : stream (is ++ js) = stream is ++ stream js :=
  List.flatMap_append

theorem stream_singleton (i : Instruction) : stream [i] = i.bytes := by
  simp [stream]

theorem stream_cons (i : Instruction) (is : List Instruction) :
    stream (i :: is) = i.bytes ++ stream is := List.flatMap_cons

private theorem located_concat {is : List Instruction} (he : ∀ i ∈ is, i.Encodable) (offset : Nat)
    (j : Instruction) :
    located offset (is ++ [j]) = located offset is ++ [⟨offset + (stream is).length, j⟩] := by
  induction is generalizing offset with
  | nil => rfl
  | cons i is ih =>
    obtain ⟨hi, he⟩ := List.forall_mem_cons.mp he
    rw [List.cons_append, located, ih he, located, stream_cons, List.length_append,
      hi.length_bytes, List.cons_append, Nat.add_assoc]

theorem back?_located {is : List Instruction} (he : ∀ i ∈ is, i.Encodable) :
    ((located 0 is).toArray.back?.map fun l => Emitted.mk l.instruction.op l.offset) =
      record? is := by
  cases is using List.reverseRecOn with
  | nil => rfl
  | append_singleton is i =>
    rw [located_concat (fun j hj => he j (List.mem_append_left _ hj)), record?_concat]
    simp

/-- A target does not change the record. -/
theorem record?_target {front back : List Instruction} {i j : Instruction} (hop : j.op = i.op)
    (hl : j.bytes.length = i.bytes.length) :
    record? (front ++ j :: back) = record? (front ++ i :: back) := by
  cases back using List.reverseRecOn with
  | nil => rw [record?_concat, record?_concat, hop]
  | append_singleton back k =>
    rw [← List.cons_append, ← List.append_assoc, record?_concat, ← List.cons_append,
      ← List.append_assoc, record?_concat]
    simp only [stream_append, stream_cons, List.length_append, hl]

end Instruction

namespace Emission

open Instruction

/-- The code can be read to its end, and the instruction on record is its last one. -/
def Recorded (em : Emission) : Prop :=
  em.code.listing.error = none ∧
    em.last = em.code.listing.items.back?.map fun l => Emitted.mk l.instruction.op l.offset

instance (em : Emission) : Decidable em.Recorded := inferInstanceAs (Decidable (_ ∧ _))

/-- The code consists of these instructions, and the last one is on record. -/
structure Holds (em : Emission) (is : List Instruction) : Prop where
  encodable : ∀ i ∈ is, i.Encodable
  code : em.code.toList = stream is
  last : em.last = record? is

theorem recorded_iff {em : Emission} : em.Recorded ↔ ∃ is, em.Holds is := by
  constructor
  · rintro ⟨herror, hlast⟩
    obtain ⟨is, he, hs⟩ := Code.listing_error_eq_none_iff.mp herror
    rw [Code.listing_eq he hs, back?_located he] at hlast
    exact ⟨is, he, hs, hlast⟩
  · rintro ⟨is, he, hs, hlast⟩
    rw [Recorded, Code.listing_eq he hs, back?_located he]
    exact ⟨rfl, hlast⟩

variable {em : Emission} {is front : List Instruction} {i : Instruction}

namespace Holds

theorem recorded (h : em.Holds is) : em.Recorded := recorded_iff.mpr ⟨is, h⟩

theorem nil : ({} : Emission).Holds [] := ⟨List.forall_mem_nil _, rfl, rfl⟩

theorem size (h : em.Holds is) : em.code.size = (stream is).length := by
  rw [← Array.length_toList, h.code]

theorem emit (h : em.Holds is) (hi : i.Encodable) : (em.emit i.op i.bytes).Holds (is ++ [i]) where
  encodable := List.forall_mem_append.mpr ⟨h.encodable, List.forall_mem_singleton.mpr hi⟩
  code := by
    rw [stream_append, stream_singleton, ← h.code]
    simp [Emission.emit]
  last := by
    rw [record?_concat, ← h.size]
    rfl

theorem lastIs_iff (h : em.Holds is) {op : Opcode} :
    em.lastIs op = true ↔ ∃ js i, is = js ++ [i] ∧ i.op = op := by
  have hlast := h.last
  have hsize := h.size
  cases is using List.reverseRecOn with
  | nil => simp [lastIs, hlast, record?]
  | append_singleton js i =>
    have hne : em.code.isEmpty = false := by
      rw [stream_append, stream_singleton, List.length_append, Instruction.bytes,
        List.length_cons] at hsize
      rw [Array.isEmpty_eq_false_iff, ← Array.size_pos_iff]
      omega
    rw [record?_concat] at hlast
    simp only [lastIs, hne, hlast, Bool.not_false, Option.any_some, Bool.true_and,
      decide_eq_true_eq]
    constructor
    · exact fun hop => ⟨js, i, rfl, hop⟩
    · rintro ⟨ks, k, hk, hop⟩
      obtain ⟨-, hi⟩ := List.append_inj' hk rfl
      rwa [List.singleton_inj.mp hi]

/-- Only what was added is taken to be added. -/
theorem lastIsFrom_iff (h : em.Holds (front ++ is)) {op : Opcode} :
    em.lastIsFrom op (stream front).length = true ↔ ∃ js i, is = js ++ [i] ∧ i.op = op := by
  have hlast := h.last
  rw [lastIsFrom, Bool.and_eq_true, h.lastIs_iff]
  cases is using List.reverseRecOn with
  | nil =>
    rw [List.append_nil] at hlast ⊢
    constructor
    · rintro ⟨⟨js, i, rfl, hop⟩, hfrom⟩
      rw [hlast, record?_concat, stream_append, stream_singleton, Instruction.bytes] at hfrom
      simp only [Option.any_some, decide_eq_true_eq, List.length_append, List.length_cons] at hfrom
      omega
    · rintro ⟨js, i, hnil, -⟩
      simp at hnil
  | append_singleton js i =>
    rw [← List.append_assoc, record?_concat, stream_append] at hlast
    simp [hlast, ← List.append_assoc]

/-- The last instruction is taken off, and with it the record of it. -/
theorem removeLast (h : em.Holds (is ++ [i])) (hp : em.previous = record? is) :
    em.removeLast.Holds is := by
  have hlast := h.last
  have hcode := h.code
  rw [record?_concat] at hlast
  rw [stream_append] at hcode
  refine ⟨fun j hj => h.encodable j (List.mem_append_left _ hj), ?_, ?_⟩
  · have hs := Code.toList_shrink hcode
    simpa only [Emission.removeLast, hlast] using hs
  · simp only [Emission.removeLast, hlast, hp]

theorem returnLast (h : em.Holds (is ++ [⟨.pop, []⟩])) :
    em.returnLast.Holds (is ++ [⟨.returnValue, []⟩]) := by
  have hlast := h.last
  have hcode := h.code
  obtain ⟨he, -⟩ := List.forall_mem_append.mp h.encodable
  rw [record?_concat] at hlast
  rw [stream_append, ← List.append_nil (stream is ++ _)] at hcode
  refine ⟨List.forall_mem_append.mpr ⟨he, List.forall_mem_singleton.mpr .nil⟩, ?_, ?_⟩
  · have ho := @Code.toList_overwrite em.code (stream is) (stream [⟨.pop, []⟩]) []
      [Opcode.returnValue.code] hcode rfl
    have hreturn : stream [⟨.returnValue, []⟩] = [Opcode.returnValue.code] := rfl
    rw [List.append_nil] at ho
    rw [stream_append, hreturn]
    simpa only [Emission.returnLast, hlast] using ho
  · simp only [Emission.returnLast, hlast, record?_concat]

/-- An instruction is written over with one of the same kind. -/
theorem replace {back : List Instruction} {j : Instruction} (h : em.Holds (front ++ i :: back))
    (hop : j.op = i.op) (hj : j.Encodable) (hl : j.bytes.length = i.bytes.length) :
    Holds { em with code := em.code.replace (stream front).length j.bytes }
      (front ++ j :: back) := by
  obtain ⟨hfront, hrest⟩ := List.forall_mem_append.mp h.encodable
  obtain ⟨-, hback⟩ := List.forall_mem_cons.mp hrest
  have hcode := h.code
  rw [stream_append, stream_cons, ← List.append_assoc] at hcode
  refine ⟨List.forall_mem_append.mpr ⟨hfront, List.forall_mem_cons.mpr ⟨hj, hback⟩⟩, ?_,
    h.last.trans (record?_target hop hl).symm⟩
  rw [stream_append, stream_cons, ← List.append_assoc]
  exact Code.toList_replace hcode hl rfl

end Holds
end Emission
end ClosureVM
