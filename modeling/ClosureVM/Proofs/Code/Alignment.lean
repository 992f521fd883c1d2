import ClosureVM.Proofs.Code.RoundTrip
import ClosureVM.Proofs.Code.Layout

/-! The offsets at which the instructions of a listing start, and at which it ends. -/
namespace ClosureVM.Code

open Instruction

/-- Where an instruction is listed, and the end. -/
def boundaries (code : Code) : List Nat :=
  code.listing.items.toList.map Located.offset ++ [code.size]

/-- The listing has `l`, and what is listed behind it starts at `next`, or the code ends there. -/
def Lists (code : Code) (l : Located) (next : Nat) : Prop :=
  ∃ k, code.listing.items[k]? = some l ∧ code.boundaries[k + 1]? = some next

/-- Code that can be read to its end, in which jumps go to an instruction or to the end. -/
structure Regular (code : Code) : Prop where
  reads : code.listing.error = none
  jumps : ∀ l ∈ code.listing.items, l.instruction.op.isPlain = false →
    ∀ target ∈ l.instruction.operands, target ∈ code.boundaries

variable {code : Code}

/-- Listed instructions leave no gap in front of them. -/
theorem boundaries_head {is : List Instruction} {front : List UInt8}
    (h : code.toList = front ++ stream is) :
    ((located front.length is).map Located.offset ++ [code.size])[0]? = some front.length := by
  cases is with
  | nil =>
    have hsize : code.size = front.length := by
      rw [← Array.length_toList, h, stream, List.flatMap_nil, List.append_nil]
    rw [located, List.map_nil, List.nil_append, hsize]
    rfl
  | cons i is => rfl

/-- What is listed is what is read there, and the next boundary is behind it. -/
theorem boundaries_located {is : List Instruction} (he : ∀ i ∈ is, i.Encodable)
    {front : List UInt8} (h : code.toList = front ++ stream is) {k : Nat} {l : Located}
    (hl : (located front.length is)[k]? = some l) :
    code.fetch? l.offset = some l.instruction ∧
      ((located front.length is).map Located.offset ++ [code.size])[k + 1]? =
        some (l.offset + l.instruction.size) := by
  induction is generalizing front k with
  | nil => cases hl
  | cons i is ih =>
    obtain ⟨hi, hrest⟩ := List.forall_mem_cons.mp he
    have hfront : code.toList = front ++ i.bytes ++ stream is := by
      rw [h, stream, List.flatMap_cons, ← List.append_assoc]
      rfl
    have hlen : (front ++ i.bytes).length = front.length + i.size := by
      rw [List.length_append, hi.length_bytes]
    rw [located, ← hlen] at hl ⊢
    cases k with
    | zero =>
      cases hl
      refine ⟨fetch?_eq hi hfront, ?_⟩
      rw [← hlen]
      exact boundaries_head hfront
    | succ k => exact ih hrest hfront hl

theorem Lists.spec {l : Located} {next : Nat} (h : code.Lists l next)
    (hr : code.listing.error = none) :
    code.fetch? l.offset = some l.instruction ∧ next = l.offset + l.instruction.size := by
  obtain ⟨is, he, hs⟩ := listing_error_eq_none_iff.mp hr
  obtain ⟨k, hk, hnext⟩ := h
  rw [boundaries, listing_eq he hs] at hnext
  rw [listing_eq he hs] at hk
  have hl := @boundaries_located code is he [] hs k l (by simpa using hk)
  exact ⟨hl.1, Option.some.inj (hnext.symm.trans hl.2)⟩

theorem zero_mem_boundaries (hr : code.listing.error = none) : 0 ∈ code.boundaries := by
  obtain ⟨is, he, hs⟩ := listing_error_eq_none_iff.mp hr
  rw [boundaries, listing_eq he hs]
  exact List.mem_of_getElem? (@boundaries_head code is [] hs)

/-- Every boundary but the end is that of a listed instruction. -/
theorem exists_lists {ip : Nat} (hr : code.listing.error = none) (h : ip ∈ code.boundaries)
    (hip : ip < code.size) :
    ∃ l, l.offset = ip ∧ code.Lists l (ip + l.instruction.size) := by
  obtain hitem | hend := List.mem_append.mp h
  · obtain ⟨l, hl, rfl⟩ := List.mem_map.mp hitem
    obtain ⟨k, hk⟩ := List.mem_iff_getElem?.mp hl
    obtain ⟨is, he, hs⟩ := listing_error_eq_none_iff.mp hr
    refine ⟨l, rfl, k, by simpa using hk, ?_⟩
    rw [listing_eq he hs] at hk
    rw [boundaries, listing_eq he hs]
    exact (@boundaries_located code is he [] hs k l hk).2
  · have := List.mem_singleton.mp hend
    omega

theorem Lists.next_mem {l : Located} {next : Nat} (h : code.Lists l next) :
    next ∈ code.boundaries := by
  obtain ⟨k, -, hnext⟩ := h
  exact List.mem_of_getElem? hnext

/-- The first operand of a jump is where it goes. -/
theorem Regular.target_mem (h : code.Regular) {l : Located} {next : Nat} (hl : code.Lists l next)
    (hp : l.instruction.op.isPlain = false) :
    l.instruction.operands.getD 0 0 ∈ code.boundaries := by
  have he := (drop_of_fetch? (hl.spec h.reads).1).1
  obtain ⟨k, hk, -⟩ := hl
  apply h.jumps l (Array.mem_of_getElem? hk) hp
  obtain ⟨offset, op, operands⟩ := l
  cases op with
  | jump | jumpNotTruthy =>
    cases he with
    | cons _ _ => exact List.mem_cons_self
  | _ => cases hp

/-- A listed instruction has a line of its own in the text. -/
theorem Lists.mem_text {l : Located} {next : Nat} (h : code.Lists l next)
    (hr : code.listing.error = none) :
    ∃ above below, code.disassemble =
      .ok (String.join ((above ++ l.text :: below).map (· ++ "\n"))) := by
  obtain ⟨is, he, hs⟩ := listing_error_eq_none_iff.mp hr
  obtain ⟨k, hk, -⟩ := h
  rw [listing_eq he hs] at hk
  have hl : l ∈ located 0 is := List.mem_of_getElem? (by simpa using hk)
  obtain ⟨above, below, hsplit⟩ := List.append_of_mem hl
  refine ⟨above.map Located.text, below.map Located.text, ?_⟩
  rw [disassemble_eq_ok he hs, hsplit]
  simp [Function.comp_def]

end ClosureVM.Code
