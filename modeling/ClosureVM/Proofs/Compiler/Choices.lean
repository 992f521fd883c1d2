import ClosureVM.Proofs.Compiler.Writing

/-! What is written for choices, whose jumps get their targets afterwards. -/
namespace ClosureVM

namespace Piece

private theorem fits_op {op : Opcode} (hp : op.isPlain) (hw : op.widths = []) (position : Nat) :
    Fits position [.op op] := by
  refine ⟨⟨hp, ?_⟩, trivial⟩
  rw [Instruction.Encodable, hw]
  exact .nil

theorem operands_eq_nil {i : Instruction} (hw : i.op.widths = []) (hi : i.Encodable) :
    i.operands = [] := by
  rw [Instruction.Encodable, hw] at hi
  exact List.forall₂_nil_left_iff.mp hi

/-- Statements end in an expression statement. -/
def EndsInPop (ps : List Piece) : Prop := ∃ qs, ps = qs ++ [.op .pop]

theorem asBranch_concat_pop (qs : List Piece) : asBranch (qs ++ [.op .pop]) = qs := by
  simp [asBranch]

theorem asBranch_of_not_endsInPop {ps : List Piece} (h : ¬ EndsInPop ps) :
    asBranch ps = ps ++ [.op .pushNull] := by
  unfold asBranch
  split
  · rename_i hl
    obtain ⟨qs, rfl⟩ := List.getLast?_eq_some_iff.mp hl
    exact absurd ⟨qs, rfl⟩ h
  · rfl

/-- What a last `pop` or `pushNull` does not change, a branch and its statements share. -/
theorem asBranch_iff {T : List Piece → Prop} (hpop : ∀ qs, T (qs ++ [.op .pop]) ↔ T qs)
    (hnull : ∀ qs, T (qs ++ [.op .pushNull]) ↔ T qs) (ps : List Piece) :
    T (asBranch ps) ↔ T ps := by
  by_cases hp : EndsInPop ps
  · obtain ⟨qs, rfl⟩ := hp
    rw [asBranch_concat_pop, hpop]
  · rw [asBranch_of_not_endsInPop hp, hnull]

theorem fits_concat_op {op : Opcode} (hp : op.isPlain) (hw : op.widths = []) {position : Nat}
    {ps : List Piece} : Fits position (ps ++ [.op op]) ↔ Fits position ps := by
  rw [fits_append]
  exact and_iff_left (fits_op hp hw _)

theorem fits_asBranch {position : Nat} {ps : List Piece} :
    Fits position (asBranch ps) ↔ Fits position ps :=
  asBranch_iff (fun _ => fits_concat_op rfl rfl) (fun _ => fits_concat_op rfl rfl) ps

end Piece

namespace Compiler

variable {c c₁ c' : Compiler} {ps : List Piece} {d : Draft}

/-- The compiler takes a last instruction for a `pop` iff it is one. -/
theorem Writes.lastIs_iff (hw : c.Writes true ps d c₁) (op : Opcode) (hop : op.widths = []) :
    c₁.emission.lastIs op = true ↔
      (ps = [] ∧ c.emission.lastIs op = true) ∨ ∃ qs, ps = qs ++ [.op op] := by
  cases ps using List.reverseRecOn with
  | nil =>
    have hl := hw.last rfl
    have hc : c₁.emission.code = c.emission.code := by
      have := hw.code
      simpa [Piece.layout] using this
    simp [Emission.lastIs, hl, hc, Emission.lastAfter]
  | append_singleton qs q =>
    have hl := hw.last rfl
    have hf := (Piece.fits_append.mp hw.fits).2
    have hne : c₁.emission.code.isEmpty = false := by
      have hp := hw.position_eq
      have hpos := Piece.totalSize_pos hf
      rw [Piece.totalSize_append] at hp
      rw [Array.isEmpty_eq_false_iff]
      intro he
      simp [position, he] at hp
      omega
    cases q with
    | ins i =>
      rw [Emission.lastAfter, List.getLast?_concat] at hl
      have hi : c₁.emission.lastIs op = true ↔ i.op = op := by simp [Emission.lastIs, hne, hl]
      rw [hi]
      constructor
      · rintro rfl
        obtain ⟨iop, operands⟩ := i
        obtain rfl : operands = [] := Piece.operands_eq_nil hop hf.1.2
        exact .inr ⟨qs, rfl⟩
      · rintro (⟨hnil, -⟩ | ⟨rs, hrs⟩)
        · simp at hnil
        · have := (List.append_inj' hrs rfl).2
          simp only [List.cons.injEq, Piece.ins.injEq, and_true] at this
          rw [this]
    | branch t e =>
      rw [Emission.lastAfter, List.getLast?_concat] at hl
      simp [Emission.lastIs, hl]
    | skip => exact absurd hf.1 id

end Compiler

/-- What is done to a branch once its statements are written. -/
def finishBranch (start : Nat) : CompileM Unit := do
  if (← CompileM.emission).lastIsFrom .pop start then CompileM.removeLast
  else CompileM.emit .pushNull

theorem compileBranch_apply (x : CompileM Unit) (c : Compiler) :
    compileBranch x c = (x >>= fun _ => finishBranch c.position) c := rfl

/-- A branch leaves its value on the stack, if the instruction before it is no `pop`. -/
theorem finishBranch_ok {c c₁ : Compiler} {ts : List Piece} {d : Draft}
    (hw : c.Writes true ts d c₁) (hl : c.emission.lastIs .pop = false) :
    ∃ c', finishBranch c.position c₁ = .ok () c' ∧ c.Writes false (Piece.asBranch ts) d c' := by
  by_cases he : Piece.EndsInPop ts
  · obtain ⟨qs, rfl⟩ := he
    have hlast : c₁.emission.last = some ⟨.pop, c.position + Piece.totalSize qs⟩ := by
      rw [hw.last rfl, Emission.lastAfter, List.getLast?_concat, List.dropLast_concat]
      rfl
    have hpop : c₁.emission.lastIs .pop = true := (hw.lastIs_iff .pop rfl).mpr (.inr ⟨qs, rfl⟩)
    have hfrom : c₁.emission.lastIsFrom .pop c.position = true := by
      simp [Emission.lastIsFrom, hpop, hlast]
    obtain ⟨hf, -⟩ := Piece.fits_append.mp hw.fits
    refine ⟨{ c₁ with emission := c₁.emission.removeLast }, ?_, hw.draft, hw.outer, hw.nested, ?_,
      Piece.fits_asBranch.mpr hw.fits, fun h => by cases h⟩
    · simp [finishBranch, CompileM.removeLast, CompileM.editLast, hfrom, hlast]
    · rw [Piece.asBranch_concat_pop]
      have hlen : (c.emission.code.toList ++ Piece.layout c.position qs).length =
          c.position + Piece.totalSize qs := by
        rw [List.length_append, Piece.length_layout hf]
        rfl
      have hcode := hw.code
      rw [Piece.layout_append, ← List.append_assoc] at hcode
      have hs := Code.toList_shrink hcode
      rw [hlen] at hs
      simpa [Emission.removeLast, hlast] using hs
  · have hpop : c₁.emission.lastIs .pop = false := by
      rw [← Bool.not_eq_true, hw.lastIs_iff .pop rfl, hl]
      rintro (⟨-, h⟩ | h)
      · cases h
      · exact he h
    have hfrom : c₁.emission.lastIsFrom .pop c.position = false := by
      simp [Emission.lastIsFrom, hpop]
    have hi : Instruction.Encodable ⟨.pushNull, []⟩ := .nil
    rw [Piece.asBranch_of_not_endsInPop he]
    refine ⟨c₁.emitted ⟨.pushNull, []⟩, ?_, ?_⟩
    · simpa [finishBranch, hfrom] using CompileM.emit_eq_ok.mpr ⟨[], rfl, hi, rfl⟩
    · have he := Compiler.Writes.emitted (b := false) c₁ (i := ⟨.pushNull, []⟩) rfl hi
      rw [hw.draft] at he
      exact hw.append he fun h => by cases h

theorem compileBranch_sound {x : CompileM Unit} {T : Draft → List Piece → Draft → Prop}
    (hx : Implements true x T) {c c' : Compiler} (hn : c.Nested)
    (hl : c.emission.lastIs .pop = false) (h : compileBranch x c = .ok () c') :
    ∃ ts d, T c.draft ts d ∧ c.Writes false (Piece.asBranch ts) d c' := by
  rw [compileBranch_apply] at h
  obtain ⟨_, c₁, h₁, h₂⟩ := EStateM.bind_eq_ok.mp h
  obtain ⟨ts, d, ht, hw⟩ := hx.sound hn h₁
  obtain ⟨c₂, h₃, hw'⟩ := finishBranch_ok hw hl
  cases h₂.symm.trans h₃
  exact ⟨ts, d, ht, hw'⟩

theorem compileBranch_complete {x : CompileM Unit} {T : Draft → List Piece → Draft → Prop}
    (hx : Implements true x T) {c : Compiler} {ts : List Piece} {d : Draft} (hn : c.Nested)
    (hl : c.emission.lastIs .pop = false) (ht : T c.draft ts d)
    (hf : Piece.Fits c.position (Piece.asBranch ts)) :
    ∃ c', compileBranch x c = .ok () c' ∧ c.Writes false (Piece.asBranch ts) d c' := by
  obtain ⟨c₁, h₁, hw⟩ := hx.complete hn ht (Piece.fits_asBranch.mp hf)
  obtain ⟨c', h₂, hw'⟩ := finishBranch_ok hw hl
  exact ⟨c', by rw [compileBranch_apply, EStateM.bind_ok h₁, h₂], hw'⟩

namespace Compiler

/-- The compilation after the bytes at `position` have been replaced by an instruction. -/
def patched (c : Compiler) (position : Nat) (i : Instruction) : Compiler :=
  { c with emission := { c.emission with code := c.emission.code.replace position i.bytes } }

end Compiler

theorem CompileM.patchHere_eq_ok {op : Opcode} {old : Nat} {front back : List UInt8}
    {c c' : Compiler} (hw : op.widths = [2])
    (hc : c.emission.code.toList = front ++ Instruction.bytes ⟨op, [old]⟩ ++ back) :
    CompileM.patchHere front.length c = .ok () c' ↔
      c.position < 256 ^ 2 ∧ c' = c.patched front.length ⟨op, [c.position]⟩ := by
  have hat : c.emission.code.at? front.length = some op.code := by
    have hs : front.length < c.emission.code.size := by
      rw [← Array.length_toList, hc]
      simp [Instruction.bytes]
    rw [Code.at?, place?_natCast, if_pos hs, Option.bind_some, ← Array.getElem?_toList, hc]
    simp [Instruction.bytes]
  have hposition : c.emission.code.size = c.position := rfl
  simp only [CompileM.patchHere, CompileM.patch, CompileM.position, CompileM.emission,
    EStateM.bind_apply, EStateM.get_apply, EStateM.pure_apply, CompileM.need, hat,
    Opcode.ofByte?_code, hposition]
  by_cases hp : c.position < 256 ^ 2
  · have hi' : Instruction.Encodable ⟨op, [c.position]⟩ := by
      rw [Instruction.Encodable, hw]
      exact .cons hp .nil
    have he : op.encode [.int c.position] = .ok (Instruction.bytes ⟨op, [c.position]⟩) :=
      Opcode.encode_natCast hi'
    simp only [he, hp, true_and]
    exact ⟨fun h => by cases h; rfl, fun h => by rw [h]; rfl⟩
  · have hne : ¬ ∃ bytes, op.encode [.int c.position] = .ok bytes := by
      rintro ⟨bytes, he⟩
      obtain ⟨ns, ho, hi', -⟩ := @Opcode.encode_ok op [(c.position : Int)] bytes he
      obtain ⟨n, rfl⟩ : ∃ n, ns = [n] :=
        List.length_eq_one_iff.mp (by rw [← List.length_map, ← ho, List.length_singleton])
      obtain rfl : c.position = n := Int.natCast_inj.mp (List.singleton_inj.mp ho)
      rw [Instruction.Encodable, hw] at hi'
      cases hi' with
      | cons h _ => exact hp h
    cases he : op.encode [.int c.position] with
    | ok bytes => exact absurd ⟨bytes, he⟩ hne
    | error e => exact ⟨fun h => (by cases h), fun h => absurd h.1 hp⟩

/-- What is written for a choice behind its condition. -/
def compileChoice (first second : CompileM Unit) : CompileM Unit := do
  let toAlternative ← CompileM.emitAt .jumpNotTruthy [unpatched]
  compileBranch first
  let toEnd ← CompileM.emitAt .jump [unpatched]
  CompileM.patchHere toAlternative
  compileBranch second
  CompileM.patchHere toEnd

namespace Compiler

variable {c c₁ c₂ c' : Compiler} {ts es : List Piece} {d₁ d₂ : Draft}

/-- Behind the first part of a choice: the jump over the second part is written, and the jump
over the first part has its target. -/
def between (c c₁ : Compiler) : Compiler :=
  (c₁.emitted ⟨.jump, [9999]⟩).patched c.position ⟨.jumpNotTruthy, [c₁.position + 3]⟩

theorem toList_emitted (c : Compiler) (i : Instruction) :
    (c.emitted i).emission.code.toList = c.emission.code.toList ++ i.bytes := by
  simp [emitted, Emission.emit]

private theorem position_emitted (c : Compiler) {i : Instruction} (hi : i.Encodable) :
    (c.emitted i).position = c.position + i.size := by
  rw [position, ← Array.length_toList, toList_emitted, List.length_append, hi.length_bytes]
  rfl

theorem toList_patched {front back : List UInt8} {i j : Instruction}
    (hc : c.emission.code.toList = front ++ i.bytes ++ back)
    (hl : j.bytes.length = i.bytes.length) {p : Nat} (hp : p = front.length) :
    (c.patched p j).emission.code.toList = front ++ j.bytes ++ back :=
  Code.toList_replace hc hl (by rw [hp])

private theorem position_patched {front back : List UInt8} {i j : Instruction}
    (hc : c.emission.code.toList = front ++ i.bytes ++ back)
    (hl : j.bytes.length = i.bytes.length) {p : Nat} (hp : p = front.length) :
    (c.patched p j).position = c.position := by
  have h := congrArg List.length (toList_patched hc hl hp)
  have h' := congrArg List.length hc
  simp only [List.length_append, hl, Array.length_toList] at h h'
  exact h.trans h'.symm

/-- The placeholder of a jump can be written. -/
theorem encodable_unpatched {op : Opcode} (hw : op.widths = [2]) :
    Instruction.Encodable ⟨op, [9999]⟩ := by
  rw [Instruction.Encodable, hw]
  exact .cons (by decide) .nil

theorem position_unpatched (c : Compiler) {op : Opcode} (hw : op.widths = [2]) :
    (c.emitted ⟨op, [9999]⟩).position = c.position + 3 := by
  rw [c.position_emitted (encodable_unpatched hw), Instruction.size, Opcode.size_eq, hw]
  rfl

/-- A jump is as long with its target as with the placeholder. -/
theorem length_target {op : Opcode} (hw : op.widths = [2]) {target : Nat}
    (ht : target < 256 ^ 2) : (Instruction.bytes ⟨op, [target]⟩).length =
      (Instruction.bytes ⟨op, [9999]⟩).length := by
  have hi : Instruction.Encodable ⟨op, [target]⟩ := by
    rw [Instruction.Encodable, hw]
    exact .cons ht .nil
  exact hi.length_bytes.trans (encodable_unpatched hw).length_bytes.symm

theorem position_eq_length (c : Compiler) : c.position = c.emission.code.toList.length :=
  Array.length_toList.symm

section Choice

variable (h₁ : (c.emitted ⟨.jumpNotTruthy, [9999]⟩).Writes false ts d₁ c₁)

include h₁

theorem position_behind : c₁.position = c.position + 3 + Piece.totalSize ts := by
  rw [h₁.position_eq, position_unpatched c rfl]

/-- The bytes of a choice behind its first part, before any jump has its target. -/
theorem toList_behind :
    (c₁.emitted ⟨.jump, [9999]⟩).emission.code.toList =
      c.emission.code.toList ++ Instruction.bytes ⟨.jumpNotTruthy, [9999]⟩ ++
        (Piece.layout (c.position + 3) ts ++ Instruction.bytes ⟨.jump, [9999]⟩) := by
  rw [toList_emitted, h₁.code, position_unpatched c rfl, toList_emitted]
  simp only [List.append_assoc]

theorem patchHere_first : CompileM.patchHere c.position (c₁.emitted ⟨.jump, [9999]⟩) = .ok () c' ↔
    c₁.position + 3 < 256 ^ 2 ∧ c' = c.between c₁ := by
  rw [between, c.position_eq_length, CompileM.patchHere_eq_ok rfl (toList_behind h₁),
    position_unpatched c₁ rfl]

variable (hp : c₁.position + 3 < 256 ^ 2)

include hp

theorem position_between : (c.between c₁).position = c₁.position + 3 := by
  rw [between, position_patched (toList_behind h₁) (length_target rfl hp) c.position_eq_length,
    position_unpatched c₁ rfl]

private theorem toList_between :
    (c.between c₁).emission.code.toList =
      c.emission.code.toList ++ (Piece.jumpOver c.position (Piece.totalSize ts)).bytes ++
        Piece.layout (c.position + 3) ts ++ Instruction.bytes ⟨.jump, [9999]⟩ := by
  rw [between, toList_patched (toList_behind h₁) (length_target rfl hp) c.position_eq_length,
    position_behind h₁]
  simp only [List.append_assoc, Piece.jumpOver]

theorem length_front : c₁.position = (c.emission.code.toList ++
    (Piece.jumpOver c.position (Piece.totalSize ts)).bytes ++
      Piece.layout (c.position + 3) ts).length := by
  have hpos := position_behind h₁
  have hf := h₁.fits
  rw [position_unpatched c rfl] at hf
  have hjo := @Piece.encodable_jumpOver c.position (Piece.totalSize ts) (by omega)
  rw [List.length_append, List.length_append, hjo.length_bytes, Piece.length_layout hf, hpos]
  rfl

variable (h₂ : (c.between c₁).Writes false es d₂ c₂)

include h₂

theorem toList_second : c₂.emission.code.toList =
    c.emission.code.toList ++ (Piece.jumpOver c.position (Piece.totalSize ts)).bytes ++
      Piece.layout (c.position + 3) ts ++ Instruction.bytes ⟨.jump, [9999]⟩ ++
      Piece.layout (c.position + 3 + Piece.totalSize ts + 3) es := by
  rw [h₂.code, toList_between h₁ hp, position_between h₁ hp, position_behind h₁]

theorem patchHere_second : CompileM.patchHere c₁.position c₂ = .ok () c' ↔
    c₂.position < 256 ^ 2 ∧ c' = c₂.patched c₁.position ⟨.jump, [c₂.position]⟩ := by
  rw [length_front h₁ hp, CompileM.patchHere_eq_ok rfl (toList_second h₁ hp h₂)]

theorem Writes.branch (hp₂ : c₂.position < 256 ^ 2) :
    c.Writes false [.branch ts es] d₂ (c₂.patched c₁.position ⟨.jump, [c₂.position]⟩) := by
  have hpos := position_behind h₁
  have hbetween := position_between h₁ hp
  have hpos₂ := h₂.position_eq
  have hf := h₁.fits
  have hf₂ := h₂.fits
  rw [position_unpatched c rfl] at hf
  rw [hbetween, hpos] at hf₂ hpos₂
  have hfit : Piece.Fits c.position [.branch ts es] := ⟨⟨hf, hf₂, by omega⟩, trivial⟩
  refine ⟨h₂.draft, h₂.outer.trans h₁.outer, ?_, ?_, hfit, fun h => (by cases h)⟩
  · exact h₂.nested.trans ((congrArg (·.env.nested.length) h₁.draft).trans h₁.nested)
  · rw [toList_patched (toList_second h₁ hp h₂) (length_target rfl hp₂) (length_front h₁ hp)]
    have hj : (⟨.jump, [c₂.position]⟩ : Instruction) =
        Piece.jumpPast (c.position + 3 + Piece.totalSize ts) (Piece.totalSize es) := by
      rw [Piece.jumpPast, hpos₂]
    rw [hj]
    simp [Piece.layout, Piece.bytes]

end Choice
theorem lastIs_unpatched (c : Compiler) {op : Opcode} (hw : op.widths = [2]) :
    (c.emitted ⟨op, [9999]⟩).emission.lastIs .pop = false := by
  have hop : op ≠ .pop := by
    rintro rfl
    cases hw
  simp [emitted, Emission.emit, Emission.lastIs, hop]

theorem lastIs_between (c c₁ : Compiler) : (c.between c₁).emission.lastIs .pop = false := by
  simp [between, patched, emitted, Emission.emit, Emission.lastIs]

end Compiler

theorem CompileM.emitAt_unpatched {op : Opcode} (hw : op.widths = [2]) (c : Compiler) :
    CompileM.emitAt op [unpatched] c = .ok c.position (c.emitted ⟨op, [9999]⟩) :=
  CompileM.emitAt_eq_ok.mpr ⟨[9999], rfl, Compiler.encodable_unpatched hw, rfl, rfl⟩

theorem Implements.choice {first second : CompileM Unit}
    {T U : Draft → List Piece → Draft → Prop} (h₁ : Implements true first T)
    (h₂ : Implements true second U) :
    Implements false (compileChoice first second) fun d ps d' =>
      ∃ d₁ ts es, T d ts d₁ ∧ U d₁ es d' ∧
        ps = [.branch (Piece.asBranch ts) (Piece.asBranch es)] where
  sound {c c'} hn h := by
    have hn₁ : (c.emitted ⟨.jumpNotTruthy, [9999]⟩).Nested := hn
    rw [compileChoice, EStateM.bind_ok (CompileM.emitAt_unpatched rfl c)] at h
    obtain ⟨_, c₁, hfirst, h⟩ := EStateM.bind_eq_ok.mp h
    obtain ⟨ts, d₁, ht, hw₁⟩ := compileBranch_sound h₁ hn₁ (c.lastIs_unpatched rfl) hfirst
    rw [EStateM.bind_ok (CompileM.emitAt_unpatched rfl c₁)] at h
    obtain ⟨_, c₂, hpatch, h⟩ := EStateM.bind_eq_ok.mp h
    obtain ⟨hp, rfl⟩ := (Compiler.patchHere_first hw₁).mp hpatch
    have hn₂ : (c.between c₁).Nested := hw₁.isNested hn₁
    obtain ⟨_, c₃, hsecond, h⟩ := EStateM.bind_eq_ok.mp h
    obtain ⟨es, d₂, hu, hw₂⟩ := compileBranch_sound h₂ hn₂ (c.lastIs_between c₁) hsecond
    obtain ⟨hp₂, rfl⟩ := (Compiler.patchHere_second hw₁ hp hw₂).mp h
    have hd : (c.between c₁).draft = d₁ := hw₁.draft
    rw [hd] at hu
    exact ⟨_, d₂, ⟨d₁, ts, es, ht, hu, rfl⟩, .branch hw₁ hp hw₂ hp₂⟩
  complete {c ps d'} hn ht hf := by
    obtain ⟨d₁, ts, es, ht, hu, rfl⟩ := ht
    obtain ⟨⟨hf₁, hf₂, hp⟩, -⟩ := hf
    have hn₁ : (c.emitted ⟨.jumpNotTruthy, [9999]⟩).Nested := hn
    rw [← @Compiler.position_unpatched c .jumpNotTruthy rfl] at hf₁
    obtain ⟨c₁, hfirst, hw₁⟩ := compileBranch_complete h₁ hn₁ (c.lastIs_unpatched rfl) ht hf₁
    have hpos := Compiler.position_behind hw₁
    have hp₁ : c₁.position + 3 < 256 ^ 2 := by omega
    have hn₂ : (c.between c₁).Nested := hw₁.isNested hn₁
    have hd : (c.between c₁).draft = d₁ := hw₁.draft
    have hbetween := Compiler.position_between hw₁ hp₁
    rw [← hd] at hu
    rw [← hpos, ← hbetween] at hf₂
    obtain ⟨c₂, hsecond, hw₂⟩ := compileBranch_complete h₂ hn₂ (c.lastIs_between c₁) hu hf₂
    have hp₂ : c₂.position < 256 ^ 2 := by
      rw [hw₂.position_eq, hbetween, hpos]
      exact hp
    refine ⟨_, ?_, .branch hw₁ hp₁ hw₂ hp₂⟩
    rw [compileChoice, EStateM.bind_ok (CompileM.emitAt_unpatched rfl c), EStateM.bind_ok hfirst,
      EStateM.bind_ok (CompileM.emitAt_unpatched rfl c₁),
      EStateM.bind_ok ((Compiler.patchHere_first hw₁).mpr ⟨hp₁, rfl⟩), EStateM.bind_ok hsecond]
    exact (Compiler.patchHere_second hw₁ hp₁ hw₂).mpr ⟨hp₂, rfl⟩

theorem compileIf_eq (condition first second : CompileM Unit) :
    compileIf condition first second = condition >>= fun _ => compileChoice first second := rfl

end ClosureVM
