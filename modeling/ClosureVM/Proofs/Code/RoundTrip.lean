import ClosureVM.Code.Assembly
import ClosureVM.Proofs.Code.Scanning
import ClosureVM.Proofs.Text.Splitting

/-! Code in writing: what is written is read back, and what can be read is what can be written. -/
namespace ClosureVM

namespace Opcode

theorem ofName?_name (op : Opcode) : ofName? op.name = some op := by cases op <;> rfl

theorem name_toList (op : Opcode) : ∃ rest, op.name.toList = 'O' :: rest := by
  cases op <;> exact ⟨_, rfl⟩

theorem not_isBlank_name (op : Opcode) : ∀ c ∈ op.name.toList, Text.isBlank c = false := by
  have h : op.name.toList.all (fun c => 0x21 ≤ c.toNat && c.toNat ≤ 0x7e) = true := by
    cases op <;> rfl
  intro c hc
  have := List.all_eq_true.mp h c hc
  simp only [Bool.and_eq_true, decide_eq_true_eq] at this
  exact Text.not_isBlank_of_bounds this.1 this.2

theorem ofCode?_eq_some {code : Int} {op : Opcode} :
    ofCode? code = some op ↔ code = op.code.toNat := by
  rw [ofCode?]
  split
  · constructor
    · rintro ⟨⟩
    · omega
  · rw [all_getElem?_eq_some]
    omega

/-- Operands that can be written are integers. -/
theorem operandsBytes_int {op : Opcode} {widths : List Nat} {operands : List Numeral}
    (hl : operands.length = widths.length) {bytes : List UInt8}
    (h : op.operandsBytes widths operands = .ok bytes) :
    ∃ ns : List Int, operands = ns.map .int := by
  induction widths generalizing operands bytes with
  | nil => exact ⟨[], List.length_eq_zero_iff.mp hl⟩
  | cons width widths ih =>
    cases operands with
    | nil => cases hl
    | cons n operands =>
      cases n with
      | other text => cases h
      | int n =>
        rw [operandsBytes] at h
        cases hr : op.operandsBytes widths operands with
        | error e =>
          rw [hr] at h
          cases hn : op.operandBytes width (.int n) with
          | error e' =>
            rw [hn] at h
            cases h
          | ok first =>
            rw [hn] at h
            cases h
        | ok rest =>
          obtain ⟨ns, rfl⟩ := ih (Nat.succ.inj hl) hr
          exact ⟨n :: ns, rfl⟩

private theorem width_le_two (op : Opcode) :
    ∀ width ∈ op.widths, width ≤ 2 := by cases op <;> decide

end Opcode

namespace Instruction

variable {i : Instruction}

/-- The words of an instruction in a listing. -/
def wordsAt (i : Instruction) (offset : Nat) : List (List Char) :=
  (Text.padded 4 offset).toList :: i.op.name.toList :: i.operands.map (Nat.toDigits 10)

theorem isDigit_of_mem_padded (offset : Nat) :
    ∀ c ∈ (Text.padded 4 offset).toList, c.isDigit = true := by
  have hpos : ¬ (offset : Int) < 0 := by omega
  intro c hc
  rw [Text.padded, if_neg hpos] at hc
  simp only [Int.natAbs_natCast, String.toList_append, String.toList_ofList, List.mem_append,
    Nat.toString_eq_ofList_toDigits, String.toList_empty] at hc
  obtain (hc | hc) | hc := hc
  · cases hc
  · rw [List.eq_of_mem_replicate hc]
    decide
  · exact Text.isDigit_of_mem_toDigits offset c hc

private theorem padded_ne_nil (offset : Nat) : (Text.padded 4 offset).toList ≠ [] := by
  rw [Text.padded]
  simp [Nat.toDigits_ne_nil]

private theorem wordsAt_ne_nil (i : Instruction) (offset : Nat) :
    ∀ w ∈ i.wordsAt offset, w ≠ [] := by
  have hname : i.op.name.toList ≠ [] := by
    obtain ⟨rest, h⟩ := i.op.name_toList
    rw [h]
    exact List.cons_ne_nil _ _
  refine List.forall_mem_cons.mpr ⟨padded_ne_nil offset, List.forall_mem_cons.mpr ⟨hname, ?_⟩⟩
  exact List.forall_mem_map.mpr fun n _ => Nat.toDigits_ne_nil

theorem not_isBlank_wordsAt (i : Instruction) (offset : Nat) :
    ∀ w ∈ i.wordsAt offset, ∀ c ∈ w, Text.isBlank c = false := by
  refine List.forall_mem_cons.mpr ⟨fun c hc => ?_,
    List.forall_mem_cons.mpr ⟨i.op.not_isBlank_name, List.forall_mem_map.mpr fun n _ c hc => ?_⟩⟩
  · exact Text.not_isBlank_of_isDigit (isDigit_of_mem_padded offset c hc)
  · exact Text.not_isBlank_of_isDigit (Text.isDigit_of_mem_toDigits n c hc)

theorem Encodable.length_operands (h : i.Encodable) : i.operands.length = i.op.widths.length :=
  (List.Forall₂.length_eq h).symm

/-- An operand has five digits at most. -/
theorem Encodable.length_toDigits (h : i.Encodable) :
    ∀ n ∈ i.operands, (Nat.toDigits 10 n).length ≤ Text.maxDigits := by
  intro n hn
  obtain ⟨width, hw, hlt⟩ := exists_of_forall₂_left (List.Forall₂.flip h) hn
  have hpow : 256 ^ width ≤ 256 ^ 2 := Nat.pow_le_pow_right (by decide) (i.op.width_le_two width hw)
  have hlen : (Nat.toDigits 10 n).length ≤ 5 :=
    (Nat.length_toDigits_le_iff (by decide) (by decide)).mpr (by omega)
  exact Nat.le_trans hlen (by decide)

theorem toList_text (h : i.Encodable) (offset : Nat) :
    (Located.text ⟨offset, i⟩).toList = [' '].intercalate (i.wordsAt offset) := by
  have hlen : (i.operands.map toString).length = i.op.widths.length := by
    rw [List.length_map, h.length_operands]
  have hline : (Located.text ⟨offset, i⟩).toList =
      (Text.padded 4 offset).toList ++ ' ' :: i.text.toList := by
    change ((Text.padded 4 offset) ++ " " ++ i.text).toList = _
    simp
  rw [hline, text, Opcode.format, if_pos hlen, String.toList_intercalate]
  simp [wordsAt, List.intercalate, Function.comp_def]

/-- A line of a listing is read as the bytes of its instruction. -/
theorem assembleLine_text (h : i.Encodable) (offset : Nat) :
    Code.assembleLine (Located.text ⟨offset, i⟩).toList = .ok i.bytes := by
  have hwords : Text.words (Located.text ⟨offset, i⟩).toList = i.wordsAt offset := by
    rw [toList_text h, Text.words_intercalate (i.wordsAt_ne_nil offset) (i.not_isBlank_wordsAt offset)]
  have hoffset : (Text.padded 4 offset).toList.all Text.isDigit = true :=
    List.all_eq_true.mpr fun c hc => Text.isDigit_of_isDigit (isDigit_of_mem_padded offset c hc)
  have hoperands : (i.operands.map (Nat.toDigits 10)).mapM Text.readInt? =
      some (i.operands.map fun n : Nat => (n : Int)) := by
    rw [List.mapM_map]
    exact mapM_eq_some fun n hn => Text.readInt?_toDigits (h.length_toDigits n hn)
  rw [Code.assembleLine, hwords, wordsAt]
  simp only [Code.dropOffset, hoffset, if_true, String.ofList_toList, Opcode.ofName?_name, hoperands]
  rw [List.map_map]
  exact Opcode.encode_natCast h

/-- What is given to write down an instruction: the code of its opcode and its operands. -/
def parts (i : Instruction) : Int × List Numeral :=
  (i.op.code.toNat, i.operands.map fun n : Nat => .int n)

/-- Exactly the instructions whose operands lie within their widths have bytes. -/
theorem encode_eq_ok {code : Int} {operands : List Numeral} {bytes : List UInt8} :
    encode code operands = .ok bytes ↔
      ∃ i : Instruction, i.Encodable ∧ (code, operands) = i.parts ∧ bytes = i.bytes := by
  constructor
  · intro h
    rw [encode] at h
    split at h
    · cases h
    · rename_i op hop
      have hlen : operands.length = op.widths.length := by
        by_contra hne
        rw [Opcode.encode, if_neg hne] at h
        cases h
      obtain ⟨ns, rfl⟩ : ∃ ns : List Int, operands = ns.map .int := by
        rw [Opcode.encode, if_pos hlen] at h
        cases hb : op.operandsBytes op.widths operands with
        | error e =>
          rw [hb] at h
          cases h
        | ok rest => exact Opcode.operandsBytes_int hlen hb
      obtain ⟨ns, rfl, he, rfl⟩ := Opcode.encode_ok h
      refine ⟨⟨op, ns⟩, he, ?_, rfl⟩
      rw [parts, Opcode.ofCode?_eq_some.mp hop, List.map_map]
      rfl
  · rintro ⟨i, he, hp, rfl⟩
    cases hp
    rw [encode, Opcode.ofCode?_eq_some.mpr rfl]
    exact Opcode.encode_natCast he

/-- An operand is an integer within its width. -/
def OperandFits (width : Nat) (operand : Numeral) : Prop :=
  ∃ n : Int, operand = .int n ∧ 0 ≤ n ∧ n < 256 ^ width

theorem forall₂_operandFits {widths : List Nat} {operands : List Numeral} :
    List.Forall₂ OperandFits widths operands ↔
      ∃ ns : List Nat, operands = ns.map (fun n : Nat => .int n) ∧
        List.Forall₂ (fun width n : Nat => n < 256 ^ width) widths ns := by
  constructor
  · intro h
    induction h with
    | nil => exact ⟨[], rfl, .nil⟩
    | @cons width operand _ _ hn _ ih =>
      obtain ⟨n, rfl, hpos, hlt⟩ := hn
      obtain ⟨ns, rfl, hns⟩ := ih
      refine ⟨n.toNat :: ns, ?_, .cons ?_ hns⟩
      · rw [List.map_cons, Int.toNat_of_nonneg hpos]
      · rwa [← Int.toNat_of_nonneg hpos, ← Opcode.natCast_pow_width, Int.ofNat_lt] at hlt
  · rintro ⟨ns, rfl, h⟩
    rw [List.forall₂_map_right_iff]
    refine h.imp fun width n hn => ⟨n, rfl, Int.natCast_nonneg n, ?_⟩
    rwa [← Opcode.natCast_pow_width, Int.ofNat_lt]

/-- When an instruction can be written. -/
theorem encode_ok_iff {code : Int} {operands : List Numeral} :
    (∃ bytes, encode code operands = .ok bytes) ↔
      ∃ op : Opcode, code = op.code.toNat ∧ List.Forall₂ OperandFits op.widths operands := by
  constructor
  · rintro ⟨bytes, h⟩
    obtain ⟨i, he, ⟨⟩, -⟩ := encode_eq_ok.mp h
    exact ⟨i.op, rfl, forall₂_operandFits.mpr ⟨i.operands, rfl, he⟩⟩
  · rintro ⟨op, rfl, h⟩
    obtain ⟨ns, rfl, he⟩ := forall₂_operandFits.mp h
    exact ⟨_, encode_eq_ok.mpr ⟨⟨op, ns⟩, he, rfl, rfl⟩⟩

/-- A listing has no line ends but those behind its lines. -/
theorem not_isLineEnd_text (h : i.Encodable) (offset : Nat) :
    ∀ c ∈ (Located.text ⟨offset, i⟩).toList, Text.isLineEnd c = false := by
  intro c hc
  rw [toList_text h] at hc
  obtain rfl | ⟨w, hw, hc⟩ := Text.mem_of_mem_intercalate hc
  · decide
  · exact Text.not_isLineEnd_of_not_isBlank (i.not_isBlank_wordsAt offset w hw c hc)

end Instruction

namespace Code

open Instruction

/-- Text is read line by line. -/
theorem assemble_eq_ok {text : String} {code : Code} :
    assemble text = .ok code ↔ ∃ chunks, 
      List.Forall₂ (fun line bytes => assembleLine line = .ok bytes) (Text.lines text.toList) chunks ∧
      code.toList = chunks.flatten := by
  have hfold (lines : List (List Char)) (front : Code) :
      lines.foldlM (fun code line => return code ++ (← assembleLine line)) front = .ok code ↔
        ∃ chunks, List.Forall₂ (fun line bytes => assembleLine line = .ok bytes) lines chunks ∧
          code.toList = front.toList ++ chunks.flatten := by
    induction lines generalizing front with
    | nil =>
      constructor
      · rintro ⟨⟩
        exact ⟨[], .nil, by simp⟩
      · rintro ⟨chunks, ⟨⟩, h⟩
        rw [List.flatten_nil, List.append_nil] at h
        rw [Array.toList_inj.mp h]
        rfl
    | cons line lines ih =>
      rw [List.foldlM_cons]
      cases hl : assembleLine line with
      | error e =>
        constructor
        · rintro ⟨⟩
        · rintro ⟨chunks, hc, -⟩
          cases hc with
          | cons h _ =>
            rw [hl] at h
            cases h
      | ok bytes =>
        refine (ih (front ++ bytes)).trans ?_
        constructor
        · rintro ⟨chunks, hc, h⟩
          exact ⟨bytes :: chunks, .cons hl hc, by simpa using h⟩
        · rintro ⟨chunks, hc, h⟩
          cases hc with
          | cons h' hc =>
            rw [hl] at h'
            cases h'
            exact ⟨_, hc, by simpa using h⟩
  refine (hfold _ #[]).trans ?_
  simp

/-- The bytes of a line are those of an instruction, if it is not blank. -/
theorem exists_stream_of_assembleLine {line : List Char} {bytes : List UInt8}
    (h : assembleLine line = .ok bytes) :
    ∃ is : List Instruction, (∀ i ∈ is, i.Encodable) ∧ bytes = stream is := by
  unfold assembleLine at h
  split at h
  · cases h
    exact ⟨[], List.forall_mem_nil _, rfl⟩
  · split at h
    · cases h
    · split at h
      · cases h
      · split at h
        · cases h
        · obtain ⟨ns, -, he, rfl⟩ := Opcode.encode_ok h
          exact ⟨[_], List.forall_mem_singleton.mpr he, by simp [stream]⟩

/-- Text that can be read makes up instructions. -/
theorem exists_stream_of_assemble {text : String} {code : Code} (h : assemble text = .ok code) :
    ∃ is : List Instruction, (∀ i ∈ is, i.Encodable) ∧ code.toList = stream is := by
  obtain ⟨chunks, hc, hcode⟩ := assemble_eq_ok.mp h
  rw [hcode]
  generalize Text.lines text.toList = lines at hc
  clear hcode
  induction hc with
  | nil => exact ⟨[], List.forall_mem_nil _, rfl⟩
  | cons hl _ ih =>
    obtain ⟨is, his, rfl⟩ := exists_stream_of_assembleLine hl
    obtain ⟨js, hjs, hrest⟩ := ih
    refine ⟨is ++ js, ?_, ?_⟩
    · rw [List.forall_mem_append]
      exact ⟨his, hjs⟩
    · rw [List.flatten_cons, hrest, stream, stream, stream, List.flatMap_append]

theorem disassemble_eq_ok {code : Code} {is : List Instruction} (he : ∀ i ∈ is, i.Encodable)
    (h : code.toList = stream is) :
    code.disassemble = .ok (String.join ((located 0 is).map fun l => l.text ++ "\n")) := by
  rw [disassemble, disassembly, listing_eq he h]
  simp [bind, Except.bind, pure, Except.pure, Function.comp_def]

theorem disassemble_ok_iff {code : Code} :
    (∃ text, code.disassemble = .ok text) ↔
      ∃ is : List Instruction, (∀ i ∈ is, i.Encodable) ∧ code.toList = stream is := by
  constructor
  · rintro ⟨text, h⟩
    refine listing_error_eq_none_iff.mp ?_
    rw [disassemble, disassembly] at h
    cases hl : code.listing with
    | mk items error =>
      rw [hl] at h
      cases error with
      | none => rfl
      | some e => cases h
  · rintro ⟨is, he, h⟩
    exact ⟨_, disassemble_eq_ok he h⟩

/-- A listing is read back. -/
theorem assemble_disassemble {code : Code} {text : String} (h : code.disassemble = .ok text) :
    assemble text = .ok code := by
  obtain ⟨is, he, hcode⟩ := disassemble_ok_iff.mp ⟨text, h⟩
  rw [disassemble_eq_ok he hcode] at h
  cases h
  have hline (offset : Nat) : ∀ l ∈ (located offset is).map fun l => l.text.toList,
      ∀ c ∈ l, Text.isLineEnd c = false := by
    clear hcode
    induction is generalizing offset with
    | nil => exact List.forall_mem_nil _
    | cons i is ih =>
      obtain ⟨hi, his⟩ := List.forall_mem_cons.mp he
      exact List.forall_mem_cons.mpr ⟨not_isLineEnd_text hi offset, ih his _⟩
  have hread (offset : Nat) : List.Forall₂ (fun line bytes => assembleLine line = .ok bytes)
      ((located offset is).map fun l => l.text.toList) (is.map bytes) := by
    clear hcode hline
    induction is generalizing offset with
    | nil => exact .nil
    | cons i is ih =>
      obtain ⟨hi, his⟩ := List.forall_mem_cons.mp he
      exact .cons (assembleLine_text hi offset) (ih his _)
  have htext : (String.join ((located 0 is).map fun l => l.text ++ "\n")).toList =
      ((located 0 is).map fun l => l.text.toList).flatMap (· ++ ['\n']) := by
    simp [String.toList_join, List.flatMap_map]
  refine assemble_eq_ok.mpr ⟨is.map bytes, ?_, ?_⟩
  · rw [htext, Text.lines_flatMap (hline 0)]
    exact hread 0
  · rw [hcode, stream, List.flatMap_def]

/-- Code is made up of instructions that are given by codes and operands: each of them can be
written, and their bytes stand one behind the other. -/
def MadeOf (code : Code) (given : List (Int × List Numeral)) : Prop :=
  ∃ chunks, List.Forall₂ (fun p bytes => Instruction.encode p.1 p.2 = .ok bytes) given chunks ∧
    code.toList = chunks.flatten

theorem madeOf_iff {code : Code} {given : List (Int × List Numeral)} :
    code.MadeOf given ↔ ∃ is : List Instruction, (∀ i ∈ is, i.Encodable) ∧
      given = is.map parts ∧ code.toList = stream is := by
  constructor
  · rintro ⟨chunks, h, hcode⟩
    rw [hcode]
    clear hcode
    induction h with
    | nil => exact ⟨[], List.forall_mem_nil _, rfl, rfl⟩
    | cons he _ ih =>
      obtain ⟨i, hi, hp, rfl⟩ := encode_eq_ok.mp he
      obtain ⟨is, his, rfl, hrest⟩ := ih
      refine ⟨i :: is, List.forall_mem_cons.mpr ⟨hi, his⟩, ?_, ?_⟩
      · rw [List.map_cons, ← hp]
      · rw [List.flatten_cons, hrest, stream, stream, List.flatMap_cons]
  · rintro ⟨is, his, rfl, hcode⟩
    refine ⟨is.map bytes, ?_, by rw [hcode, stream, List.flatMap_def]⟩
    clear hcode
    induction is with
    | nil => exact .nil
    | cons i is ih =>
      obtain ⟨hi, his⟩ := List.forall_mem_cons.mp his
      exact .cons (encode_eq_ok.mpr ⟨i, hi, rfl, rfl⟩) (ih his)

private theorem disassemble_ok_iff_madeOf {code : Code} :
    (∃ text, code.disassemble = .ok text) ↔ ∃ given, code.MadeOf given := by
  rw [disassemble_ok_iff]
  constructor
  · rintro ⟨is, his, hcode⟩
    exact ⟨_, madeOf_iff.mpr ⟨is, his, rfl, hcode⟩⟩
  · rintro ⟨given, h⟩
    obtain ⟨is, his, -, hcode⟩ := madeOf_iff.mp h
    exact ⟨is, his, hcode⟩

/-- Bytes and text are two forms of the same code. What can be disassembled is what instructions
make up, it is read as these, and its text is read back; text that can be read leads to code that
can be disassembled; and an instruction can be written iff its opcode exists and its operands are
as many as that takes and within their widths. -/
theorem bytes_text_inverse :
    (∀ code : Code,
      ((∃ text, code.disassemble = .ok text) ↔ ∃ given, code.MadeOf given) ∧
      (∀ given, code.MadeOf given →
        ∃ is, given = is.map parts ∧ code.listing = ⟨(located 0 is).toArray, none⟩) ∧
      ∀ text, code.disassemble = .ok text → assemble text = .ok code) ∧
    (∀ text code, assemble text = .ok code → ∃ text', code.disassemble = .ok text') ∧
    ∀ code operands, (∃ bytes, Instruction.encode code operands = .ok bytes) ↔
      ∃ op : Opcode, code = op.code.toNat ∧ List.Forall₂ OperandFits op.widths operands := by
  refine ⟨fun code => ⟨disassemble_ok_iff_madeOf, fun given h => ?_, fun text =>
    assemble_disassemble⟩, fun text code h => ?_, fun code operands => encode_ok_iff⟩
  · obtain ⟨is, his, hgiven, hcode⟩ := madeOf_iff.mp h
    exact ⟨is, hgiven, listing_eq his hcode⟩
  · exact disassemble_ok_iff.mpr (exists_stream_of_assemble h)

end Code

end ClosureVM
