import ClosureVM.Proofs.Code.RoundTrip
import ClosureVM.Proofs.Text.Spacing

/-! Text is assembled line by line: two texts with a line feed between them come to the code of the
first and that of the second, and how a line is spaced and numbered makes no difference. -/
namespace ClosureVM.Code

/-- The code of lines, one behind the other. -/
def assembleLines (lines : List (List Char)) : Except CodeError Code :=
  lines.foldlM (fun code line => return code ++ (← assembleLine line)) #[]

theorem assemble_eq (text : String) : assemble text = assembleLines (Text.lines text.toList) := rfl

private theorem foldlM_assembleLine (lines : List (List Char)) (front : Code) :
    lines.foldlM (fun code line => return code ++ (← assembleLine line)) front =
      (assembleLines lines).map (front ++ ·) := by
  induction lines generalizing front with
  | nil => exact congrArg Except.ok Array.append_empty.symm
  | cons line lines ih =>
    rw [assembleLines, List.foldlM_cons, List.foldlM_cons]
    cases assembleLine line with
    | error e => rfl
    | ok bytes =>
      refine (ih (front ++ bytes)).trans ?_
      refine Eq.trans ?_ (congrArg (Except.map (front ++ ·)) (ih (#[] ++ bytes)).symm)
      cases assembleLines lines with
      | error e => rfl
      | ok code =>
        refine congrArg Except.ok (Array.toList_inj.mp ?_)
        simp

theorem assembleLines_append (lines₁ lines₂ : List (List Char)) :
    assembleLines (lines₁ ++ lines₂) =
      do return (← assembleLines lines₁) ++ (← assembleLines lines₂) := by
  rw [assembleLines, List.foldlM_append, ← assembleLines]
  cases assembleLines lines₁ with
  | error e => rfl
  | ok code =>
    refine (foldlM_assembleLine lines₂ code).trans ?_
    cases assembleLines lines₂ <;> rfl

private theorem assembleLines_cons (line : List Char) (lines : List (List Char)) :
    assembleLines (line :: lines) =
      do return (← assembleLines [line]) ++ (← assembleLines lines) :=
  assembleLines_append [line] lines

private theorem assembleLines_singleton {line : List Char} {bytes : List UInt8}
    (h : assembleLine line = .ok bytes) : assembleLines [line] = .ok bytes.toArray := by
  rw [assembleLines, List.foldlM_cons, h]
  change Except.ok (#[] ++ bytes) = _
  simp

/-- Empty lines do not count. -/
theorem assembleLines_empty {lines : List (List Char)} (h : ∀ line ∈ lines, line = []) :
    assembleLines lines = .ok #[] := by
  induction lines with
  | nil => rfl
  | cons line lines ih =>
    obtain ⟨rfl, hrest⟩ := List.forall_mem_cons.mp h
    rw [assembleLines_cons, ih hrest]
    rfl

/-- A line feed between two texts parts their code and their errors. -/
theorem assemble_append (text₁ text₂ : String) :
    assemble (text₁ ++ "\n" ++ text₂) = do return (← assemble text₁) ++ (← assemble text₂) := by
  have htext : (text₁ ++ "\n" ++ text₂).toList = text₁.toList ++ '\n' :: text₂.toList := by simp
  obtain ⟨between, hb, hlines⟩ := Text.lines_append_lineFeed text₁.toList text₂.toList
  rw [assemble_eq, htext, hlines, assembleLines_append, assembleLines_append,
    assembleLines_empty hb, ← assemble_eq, ← assemble_eq]
  cases assemble text₁ with
  | error e => rfl
  | ok code =>
    change (do return (code ++ #[]) ++ (← assemble text₂)) = _
    rw [Array.append_empty]
    rfl

/-- A line in writing and its bytes. A blank line has none. Else there is an instruction, given by
its mnemonic and by numerals for its operands, and a word of digits may stand in front of it. -/
inductive Writes : List Char → List UInt8 → Prop
  | blank {line : List Char} : Text.Spaced [] line → Writes line []
  | instruction {op : Opcode} {operands : List Int} {bytes : List UInt8} {line : List Char}
    {offset : Option (List Char)} {numerals : List (List Char)} :
    op.encode (operands.map .int) = .ok bytes →
      (∀ word ∈ offset, word ≠ [] ∧ ∀ c ∈ word, Text.isDigit c = true) →
      List.Forall₂ (fun word n => Text.readInt? word = some n) numerals operands →
      Text.Spaced (offset.toList ++ op.name.toList :: numerals) line → Writes line bytes

private theorem mapM_eq_some_of_forall₂ {α β : Type} {f : α → Option β} {l : List α} {l' : List β}
    (h : List.Forall₂ (fun a b => f a = some b) l l') : l.mapM f = some l' := by
  induction h with
  | nil => rfl
  | cons hab _ ih =>
    rw [List.mapM_cons, hab, ih]
    rfl

namespace Writes

variable {line : List Char} {bytes : List UInt8}

private theorem isDigit_name (op : Opcode) : op.name.toList.all Text.isDigit = false := by
  have hletter : Text.isDigit 'O' = false := by decide
  obtain ⟨rest, h⟩ := op.name_toList
  rw [h, List.all_cons, hletter, Bool.false_and]

/-- No word of an instruction in writing is empty or has a blank in it. -/
theorem not_isBlank_words {op : Opcode} {operands : List Int} {offset : Option (List Char)}
    {numerals : List (List Char)}
    (ho : ∀ word ∈ offset, word ≠ [] ∧ ∀ c ∈ word, Text.isDigit c = true)
    (hn : List.Forall₂ (fun word n => Text.readInt? word = some n) numerals operands) :
    ∀ word ∈ offset.toList ++ op.name.toList :: numerals,
      word ≠ [] ∧ ∀ c ∈ word, Text.isBlank c = false := by
  rw [List.forall_mem_append, List.forall_mem_cons]
  refine ⟨fun word hword => ?_, ⟨?_, op.not_isBlank_name⟩, fun word hword => ?_⟩
  · obtain ⟨hne, hd⟩ := ho word (Option.mem_toList.mp hword)
    exact ⟨hne, fun c hc => Text.not_isBlank_of_anyDigit (hd c hc)⟩
  · obtain ⟨rest, h⟩ := op.name_toList
    rw [h]
    exact List.cons_ne_nil _ _
  · obtain ⟨n, -, hread⟩ := exists_of_forall₂_left hn hword
    exact Text.not_isBlank_of_readInt? hread

private theorem assembleLine_eq (h : Writes line bytes) : assembleLine line = .ok bytes := by
  cases h with
  | blank hs =>
    rw [assembleLine, hs.words_eq (List.forall_mem_nil _)]
  | @instruction op operands _ _ offset numerals he ho hn hs =>
    have hwords := hs.words_eq (not_isBlank_words ho hn)
    have hdrop : dropOffset (offset.toList ++ op.name.toList :: numerals) =
        op.name.toList :: numerals := by
      cases offset with
      | none => simp [dropOffset, isDigit_name]
      | some word =>
        have hd : word.all Text.isDigit = true := List.all_eq_true.mpr (ho word rfl).2
        simp [dropOffset, hd]
    have hread : numerals.mapM Text.readInt? = some operands := mapM_eq_some_of_forall₂ hn
    have hne : offset.toList ++ op.name.toList :: numerals ≠ [] := by simp
    rw [assembleLine, hwords]
    split
    · rename_i hnil
      exact absurd hnil hne
    · rw [hdrop]
      simp only [String.ofList_toList, Opcode.ofName?_name, hread]
      exact he

theorem not_isLineEnd (h : Writes line bytes) : ∀ c ∈ line, Text.isLineEnd c = false := by
  cases h with
  | blank hs => exact hs.not_isLineEnd (List.forall_mem_nil _)
  | instruction _ ho hn hs => exact hs.not_isLineEnd (not_isBlank_words ho hn)

end Writes

/-- Lines in writing come to their bytes, with a line feed between any two. -/
theorem assemble_writes {lines : List (List Char)} {chunks : List (List UInt8)}
    (h : List.Forall₂ Writes lines chunks) :
    assemble (String.ofList (['\n'].intercalate lines)) = .ok chunks.flatten.toArray := by
  have hline {line bytes} (h : Writes line bytes) :
      assemble (String.ofList line) = .ok bytes.toArray := by
    rw [assemble_eq, String.toList_ofList, Text.lines_of_not_isLineEnd h.not_isLineEnd]
    have hl := h.assembleLine_eq
    split
    · rename_i hnil
      rw [hnil] at hl
      cases hl
      rfl
    · exact assembleLines_singleton hl
  induction h with
  | nil => rfl
  | @cons line bytes lines chunks hl hrest ih =>
    cases hrest with
    | nil => simpa [List.intercalate] using hline hl
    | @cons line' bytes' lines chunks hl' hrest =>
      have htext : String.ofList (['\n'].intercalate (line :: line' :: lines)) =
          String.ofList line ++ "\n" ++ String.ofList (['\n'].intercalate (line' :: lines)) := by
        apply String.toList_inj.mp
        simp [List.intercalate]
      rw [htext, assemble_append, hline hl, ih]
      change Except.ok (bytes.toArray ++ _) = _
      simp

/-- Assembling a text with a line feed in it is assembling what comes before and then what comes
behind, down to the error of the first part that has one; and lines in writing come to the bytes of
their instructions, whatever their gaps, their offsets and the blank lines between them. -/
theorem assemble_compositional :
    (∀ text₁ text₂ : String, assemble (text₁ ++ "\n" ++ text₂) =
      do return (← assemble text₁) ++ (← assemble text₂)) ∧
    ∀ (lines : List (List Char)) (chunks : List (List UInt8)), List.Forall₂ Writes lines chunks →
      assemble (String.ofList (['\n'].intercalate lines)) = .ok chunks.flatten.toArray :=
  ⟨assemble_append, fun _ _ => assemble_writes⟩

/-- An offset that is wrong, a tab, a blank line and a line without an offset. -/
theorem assemble_compositional_spaced :
    let constant := [' '] ++ ['7', '7'] ++ ([' ', ' '] ++ Opcode.constant.name.toList ++
      (['\t'] ++ ['1'] ++ [' ']))
    let add := [] ++ Opcode.add.name.toList ++ []
    List.Forall₂ Writes [constant, [' '], add] [[0, 0, 1], [], [1]] ∧
      assemble (String.ofList (['\n'].intercalate [constant, [' '], add])) = .ok #[0, 0, 1, 1] := by
  intro constant add
  have hspace : ∀ c ∈ [' '], Text.isGap c = true := by simp [Text.isGap_space]
  have hone : Text.Spaced [['1']] (['\t'] ++ ['1'] ++ [' ']) :=
    .word (by simp [Text.isGap_tab]) (.blank hspace) (by simp)
  have hname : Text.Spaced [Opcode.constant.name.toList, ['1']]
      ([' ', ' '] ++ Opcode.constant.name.toList ++ (['\t'] ++ ['1'] ++ [' '])) :=
    .word (by simp [Text.isGap_space]) hone fun _ => ⟨'\t', _, rfl, Text.isGap_tab⟩
  have hseven : Text.isDigit '7' = true := Text.isDigit_of_isDigit rfl
  have hconstant : Writes constant [0, 0, 1] :=
    @Writes.instruction .constant [1] _ _ (some ['7', '7']) [['1']] rfl (by simp [hseven])
      (.cons (by decide) .nil) (.word hspace hname fun _ => ⟨' ', _, rfl, Text.isGap_space⟩)
  have hadd : Writes add [1] :=
    @Writes.instruction .add [] _ _ none [] rfl (by simp) .nil
      (.word (by simp) (.blank (by simp)) (by simp))
  have hlines : List.Forall₂ Writes [constant, [' '], add] [[0, 0, 1], [], [1]] :=
    .cons hconstant (.cons (.blank (.blank hspace)) (.cons hadd .nil))
  exact ⟨hlines, assemble_compositional.2 _ _ hlines⟩

end ClosureVM.Code
