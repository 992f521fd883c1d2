import ClosureVM.Proofs.Code.Encoding

/-! Code can be read to its end iff it is made up of instructions, and then it is read as these. -/
namespace ClosureVM

private theorem foldl_ofBigEndian (bytes : List UInt8) (n : Nat) :
    bytes.foldl (fun n b => 256 * n + b.toNat) n = 256 ^ bytes.length * n + ofBigEndian bytes := by
  unfold ofBigEndian
  induction bytes generalizing n with
  | nil => simp
  | cons b bytes ih =>
    rw [List.foldl_cons, List.foldl_cons, ih, ih (256 * 0 + b.toNat), List.length_cons]
    grind

theorem ofBigEndian_cons (b : UInt8) (bytes : List UInt8) :
    ofBigEndian (b :: bytes) = 256 ^ bytes.length * b.toNat + ofBigEndian bytes := by
  rw [ofBigEndian, List.foldl_cons, foldl_ofBigEndian, Nat.mul_zero, Nat.zero_add]

theorem ofBigEndian_lt (bytes : List UInt8) : ofBigEndian bytes < 256 ^ bytes.length := by
  induction bytes with
  | nil => decide
  | cons b bytes ih =>
    have hb := b.toNat_lt
    rw [ofBigEndian_cons, List.length_cons, Nat.pow_succ]
    calc 256 ^ bytes.length * b.toNat + ofBigEndian bytes
        < 256 ^ bytes.length * b.toNat + 256 ^ bytes.length := by omega
      _ = 256 ^ bytes.length * (b.toNat + 1) := by rw [Nat.mul_add, Nat.mul_one]
      _ ≤ 256 ^ bytes.length * 256 := Nat.mul_le_mul_left _ (by omega)

/-- Higher bytes do not show. -/
theorem bigEndian_add (width m n : Nat) :
    bigEndian width (256 ^ width * m + n) = bigEndian width n := by
  induction width generalizing m with
  | zero => rfl
  | succ width ih =>
    have hsplit : 256 ^ (width + 1) * m + n = 256 ^ width * (256 * m) + n := by
      rw [Nat.pow_succ, Nat.mul_assoc]
    rw [hsplit, bigEndian_succ, bigEndian_succ, ih, Nat.mul_add_div (Nat.pow_pos (by decide))]
    congr 1
    apply UInt8.toNat_inj.mp
    simp only [UInt8.toNat_ofNat']
    omega

/-- Bytes are those of the number that they spell. -/
theorem bigEndian_ofBigEndian (bytes : List UInt8) :
    bigEndian bytes.length (ofBigEndian bytes) = bytes := by
  induction bytes with
  | nil => rfl
  | cons b bytes ih =>
    have hlt := ofBigEndian_lt bytes
    rw [ofBigEndian_cons, List.length_cons, bigEndian_succ, bigEndian_add, ih,
      Nat.mul_add_div (Nat.pow_pos (by decide)), Nat.div_eq_of_lt hlt, Nat.add_zero,
      UInt8.ofNat_toNat]

theorem mapM_eq_some {α β : Type} {f : α → Option β} {g : α → β} {l : List α}
    (h : ∀ a ∈ l, f a = some (g a)) : l.mapM f = some (l.map g) := by
  induction l with
  | nil => rfl
  | cons a l ih =>
    obtain ⟨ha, hl⟩ := List.forall_mem_cons.mp h
    rw [List.mapM_cons, ha, ih hl]
    rfl

/-- Opcodes stand at the places of their codes. -/
theorem Opcode.all_getElem?_eq_some {n : Nat} {op : Opcode} :
    all[n]? = some op ↔ op.code.toNat = n := by
  constructor
  · intro h
    have hall : all.map (fun op => op.code.toNat) = List.range all.length := by decide
    have hn := congrArg (·[n]?) hall
    have hlt : n < all.length := (List.getElem?_eq_some_iff.mp h).1
    simpa only [List.getElem?_map, h, Option.map_some, List.getElem?_range hlt,
      Option.some.injEq] using hn
  · rintro rfl
    exact op.ofByte?_code

namespace Instruction

/-- Instructions as bytes, one behind the other. -/
def stream (is : List Instruction) : List UInt8 := is.flatMap bytes

/-- Instructions one behind the other, from an offset on. -/
def located (offset : Nat) : List Instruction → List Located
  | [] => []
  | i :: is => ⟨offset, i⟩ :: located (offset + i.size) is

end Instruction

namespace Code

open Instruction

variable {code : Code}

theorem slice_eq_take {lo hi : Nat} (hlo : lo ≤ hi) (hhi : hi ≤ code.size) :
    code.slice lo hi = (code.toList.drop lo).take (hi - lo) := by
  rw [slice, bound_natCast, bound_natCast, Array.toList_extract, Nat.min_eq_left hhi,
    Nat.min_eq_left (Nat.le_trans hlo hhi)]

private theorem at?_natCast (code : Code) (i : Nat) : code.at? i = code[i]? := by
  rw [at?, place?_natCast]
  by_cases hi : i < code.size
  · rw [if_pos hi]
    rfl
  · rw [if_neg hi, Array.getElem?_eq_none (by omega)]
    rfl

/-- Where no byte is missing, both ways to read an operand come to the same. -/
theorem readOperand?_eq {start width : Nat} (h : start + width ≤ code.size) :
    code.readOperand? start width = some (code.readOperand start width) := by
  have hbyte : ∀ i ∈ List.range width,
      code.at? ((start : Int) + (i : Nat)) = some (code.getD (start + i) 0) := by
    intro i hi
    have hlt : start + i < code.size := by
      have := List.mem_range.mp hi
      omega
    rw [← Int.natCast_add, at?_natCast, Array.getElem?_eq_getElem hlt,
      Array.getD_eq_getD_getElem?, Array.getElem?_eq_getElem hlt, Option.getD_some]
  have hbytes : (List.range width).map (fun i => code.getD (start + i) 0) =
      (code.toList.drop start).take width := by
    apply List.ext_getElem?
    intro i
    rw [List.getElem?_map, List.getElem?_take, List.getElem?_drop]
    by_cases hi : i < width
    · have hlt : start + i < code.size := by omega
      rw [List.getElem?_range hi, if_pos hi, Option.map_some, Array.getElem?_toList,
        Array.getD_eq_getD_getElem?, Array.getElem?_eq_getElem hlt, Option.getD_some]
    · rw [List.getElem?_eq_none (by simpa using hi), if_neg hi, Option.map_none]
  rw [readOperand?, mapM_eq_some hbyte, hbytes, Option.map_some, readOperand, ← Int.natCast_add,
    slice_eq_take (by omega) h, Nat.add_sub_cancel_left]

/-- Operands are read as they are written. -/
theorem operandBytes_readOperands {widths : List Nat} {start : Nat}
    (h : start + widths.sum ≤ code.size) :
    List.Forall₂ (fun width n : Nat => n < 256 ^ width) widths (code.readOperands start widths) ∧
      operandBytes widths (code.readOperands start widths) =
        (code.toList.drop start).take widths.sum := by
  induction widths generalizing start with
  | nil => exact ⟨.nil, by simp [operandBytes]⟩
  | cons width widths ih =>
    rw [List.sum_cons] at h
    have hslice : code.slice start ((start : Int) + width) =
        (code.toList.drop start).take width := by
      rw [← Int.natCast_add, slice_eq_take (by omega) (by omega), Nat.add_sub_cancel_left]
    have hlen : ((code.toList.drop start).take width).length = width := by
      rw [List.length_take, List.length_drop, Array.length_toList]
      omega
    obtain ⟨hf, hb⟩ := @ih (start + width) (by omega)
    rw [readOperands, readOperand, hslice, ← Int.natCast_add]
    have hlt := ofBigEndian_lt ((code.toList.drop start).take width)
    have hbytes := bigEndian_ofBigEndian ((code.toList.drop start).take width)
    rw [hlen] at hlt hbytes
    refine ⟨.cons hlt hf, ?_⟩
    rw [operandBytes, hbytes, hb, List.sum_cons, List.take_add, List.drop_drop]

theorem decode_of_fetch? {offset : Nat} {i : Instruction} (h : code.fetch? offset = some i)
    (hlt : offset < code.size) : code.decode offset code[offset] = .ok i := by
  rw [fetch?, Array.getElem?_eq_getElem hlt, Option.bind_some] at h
  cases hd : code.decode offset code[offset] with
  | error e =>
    rw [hd] at h
    cases h
  | ok j =>
    rw [hd] at h
    cases h
    rfl

/-- The bytes from which an instruction is read are its own. -/
theorem drop_of_fetch? {offset : Nat} {i : Instruction} (h : code.fetch? offset = some i) :
    i.Encodable ∧ code.toList.drop offset = i.bytes ++ code.toList.drop (offset + i.size) := by
  obtain ⟨b, hb, hop, hsize, hi⟩ := fetch?_eq_some h
  obtain ⟨op, operands⟩ := i
  obtain rfl : code.readOperands (offset + 1 : Nat) op.widths = operands :=
    congrArg Instruction.operands hi
  have hle : offset + 1 + op.widths.sum ≤ code.size := by
    simp only [Instruction.size, Opcode.size_eq] at hsize
    omega
  obtain ⟨hf, hbytes⟩ := operandBytes_readOperands hle
  refine ⟨hf, ?_⟩
  have hlt := (Array.getElem?_eq_some_iff.mp hb).1
  have hget : code.toList[offset] = b := by
    rw [Array.getElem_toList]
    exact (Array.getElem?_eq_some_iff.mp hb).2
  have hdrop : code.toList.drop offset = b :: code.toList.drop (offset + 1) := by
    rw [List.drop_eq_getElem_cons (by simpa using hlt), hget]
  have hrest : code.toList.drop (offset + (1 + op.widths.sum)) =
      (code.toList.drop (offset + 1)).drop op.widths.sum := by
    rw [List.drop_drop, Nat.add_assoc]
  simp only [Instruction.bytes, Instruction.size, Opcode.size_eq]
  rw [hbytes, UInt8.toNat_inj.mp (Opcode.all_getElem?_eq_some.mp hop), hdrop, hrest,
    List.cons_append, List.take_append_drop]

/-- Code that instructions make up is read as these. -/
theorem listingFrom_stream {is : List Instruction} (he : ∀ i ∈ is, i.Encodable)
    {front : List UInt8} (h : code.toList = front ++ stream is) (items : Array Located) :
    code.listingFrom front.length items =
      ⟨items ++ (located front.length is).toArray, none⟩ := by
  induction is generalizing front items with
  | nil =>
    have hs : ¬ front.length < code.size := by
      rw [← Array.length_toList, h]
      simp [stream]
    rw [listingFrom, dif_neg hs]
    simp [located]
  | cons i is ih =>
    obtain ⟨hi, hrest⟩ := List.forall_mem_cons.mp he
    rw [stream, List.flatMap_cons, ← List.append_assoc] at h
    have hl := hi.length_bytes
    have hs : front.length < code.size := by
      have := i.op.size_pos
      rw [← Array.length_toList, h, List.length_append, List.length_append, hl, Instruction.size]
      omega
    have hd := decode_of_fetch? (fetch?_eq hi h) hs
    have := ih hrest h (items.push ⟨front.length, i⟩)
    rw [List.length_append, hl] at this
    rw [listingFrom, dif_pos hs, hd]
    dsimp only
    rw [this, located]
    simp

/-- Code that is read to its end is made up of instructions. -/
theorem exists_stream_of_listingFrom {offset : Nat} {items : Array Located}
    (h : (code.listingFrom offset items).error = none) :
    ∃ is : List Instruction, (∀ i ∈ is, i.Encodable) ∧ code.toList.drop offset = stream is := by
  fun_induction listingFrom code offset items with
  | case1 offset items hlt e hd => cases h
  | case2 offset items hlt i hd ih =>
    have hf : code.fetch? offset = some i := by
      rw [fetch?, Array.getElem?_eq_getElem hlt, Option.bind_some, hd]
      rfl
    obtain ⟨hi, hdrop⟩ := drop_of_fetch? hf
    obtain ⟨is, his, hrest⟩ := ih h
    exact ⟨i :: is, List.forall_mem_cons.mpr ⟨hi, his⟩, by rw [hdrop, hrest]; rfl⟩
  | case3 offset items hlt =>
    refine ⟨[], List.forall_mem_nil _, ?_⟩
    rw [List.drop_eq_nil_of_le (by simpa using hlt)]
    rfl

/-- Code is read to its end iff it is made up of instructions, and then it is read as these. -/
theorem listing_eq {is : List Instruction} (he : ∀ i ∈ is, i.Encodable)
    (h : code.toList = stream is) : code.listing = ⟨(located 0 is).toArray, none⟩ := by
  have := @listingFrom_stream code is he [] h #[]
  simpa [listing] using this

theorem listing_error_eq_none_iff :
    code.listing.error = none ↔
      ∃ is : List Instruction, (∀ i ∈ is, i.Encodable) ∧ code.toList = stream is := by
  constructor
  · intro h
    obtain ⟨is, he, hs⟩ := exists_stream_of_listingFrom h
    exact ⟨is, he, hs⟩
  · rintro ⟨is, he, hs⟩
    rw [listing_eq he hs]

end Code
end ClosureVM
