import ClosureVM.Proofs.Compiler.Tasks
import ClosureVM.Proofs.Symbol.Visibility

/-! Writing code breaks off for one reason only. In whatever state a compilation is, the jumps that
are still open stand in the code, below all that may be removed or written over, so that they can be
given their targets; only an operand that does not fit in its bytes can stop the writing. -/
namespace ClosureVM

/-- Some operand of an instruction does not fit in its bytes. -/
def CompileStop.DoesNotFit (stop : CompileStop) : Prop :=
  ∃ (op : Opcode) (n : Int) (width : Nat), width ∈ op.widths ∧ ¬(0 ≤ n ∧ n < Int.pow 256 width) ∧
    stop = .error ⟨.encoding (.operandRange op (.int n) width), none⟩

namespace Opcode

private theorem operandsBytes_error {op : Opcode} {widths : List Nat} {operands : List Int}
    {e : CodeError} (h : op.operandsBytes widths (operands.map .int) = .error e) :
    ∃ n, ∃ width ∈ widths, ¬(0 ≤ n ∧ n < Int.pow 256 width) ∧
      e = .operandRange op (.int n) width := by
  induction widths generalizing operands with
  | nil => cases h
  | cons width widths ih =>
    cases operands with
    | nil => cases h
    | cons n operands =>
      simp only [List.map_cons, operandsBytes, operandBytes] at h
      split at h
      · cases hr : op.operandsBytes widths (operands.map .int) with
        | ok rest =>
          rw [hr] at h
          cases h
        | error e' =>
          rw [hr] at h
          cases h
          obtain ⟨m, w, hw, hm⟩ := ih hr
          exact ⟨m, w, List.mem_cons_of_mem _ hw, hm⟩
      · rename_i hn
        cases h
        exact ⟨n, width, List.mem_cons_self, hn, rfl⟩

/-- With the right number of operands, only their range can be wrong. -/
theorem encode_error {op : Opcode} {operands : List Int} {e : CodeError}
    (hl : operands.length = op.widths.length) (h : op.encode (operands.map .int) = .error e) :
    (CompileStop.error ⟨.encoding e, none⟩).DoesNotFit := by
  rw [encode, if_pos (by rw [List.length_map, hl])] at h
  cases hr : op.operandsBytes op.widths (operands.map .int) with
  | ok bytes =>
    rw [hr] at h
    cases h
  | error e' =>
    rw [hr] at h
    cases h
    obtain ⟨n, width, hw, hn, rfl⟩ := operandsBytes_error hr
    exact ⟨op, n, width, hw, hn, rfl⟩

theorem length_encode_jump {op : Opcode} (hw : op.widths = [2]) {n : Int} {bytes : List UInt8}
    (h : op.encode [.int n] = .ok bytes) : bytes.length = 3 := by
  obtain ⟨ns, -, hi, rfl⟩ := @encode_ok op [n] bytes h
  rw [hi.length_bytes, Instruction.size, size_eq, hw]
  rfl

end Opcode

namespace Code

variable {code : Code} {position p : Nat} {bytes : List UInt8}

theorem size_overwrite (h : position + bytes.length ≤ code.size) :
    (code.overwrite position bytes).size = code.size := by
  induction bytes generalizing code position with
  | nil => rfl
  | cons b bytes ih =>
    rw [List.length_cons] at h
    have hp : position < code.size := by omega
    rw [overwrite, dif_pos hp, ih (by rw [Array.size_set]; omega), Array.size_set]

/-- Nothing changes outside of the bytes that are written over. -/
theorem getElem?_overwrite (h : position + bytes.length ≤ code.size)
    (hp : p < position ∨ position + bytes.length ≤ p) :
    (code.overwrite position bytes)[p]? = code[p]? := by
  induction bytes generalizing code position with
  | nil => rfl
  | cons b bytes ih =>
    rw [List.length_cons] at h hp
    have hlt : position < code.size := by omega
    rw [overwrite, dif_pos hlt, ih (by rw [Array.size_set]; omega) (by omega),
      Array.getElem?_set_ne hlt (by omega)]

theorem size_append (code : Code) (bytes : List UInt8) :
    (code ++ bytes).size = code.size + bytes.length := by
  rw [← Array.length_toList, Array.toList_appendList, List.length_append, Array.length_toList]

theorem getElem?_append_left (hp : p < code.size) (bytes : List UInt8) :
    (code ++ bytes)[p]? = code[p]? := by
  rw [← Array.getElem?_toList, Array.toList_appendList, List.getElem?_append_left hp,
    Array.getElem?_toList]

private theorem getElem?_append_size (code : Code) (bytes : List UInt8) :
    (code ++ bytes)[code.size]? = bytes.head? := by
  rw [← Array.getElem?_toList, Array.toList_appendList,
    List.getElem?_append_right (Nat.le_of_eq Array.length_toList), Array.length_toList,
    Nat.sub_self, List.head?_eq_getElem?]

end Code

/-- The open jumps of a function, innermost first. Each stands below `limit`, its branch begins
behind it, and the jumps around it stand before it. -/
def Open (code : Code) : Nat → List Jump → Prop
  | _, [] => True
  | limit, j :: js =>
    (∃ op : Opcode, op.widths = [2] ∧ code[j.position]? = some op.code) ∧
      j.position + 3 ≤ j.start ∧ j.start ≤ limit ∧ Open code j.position js

namespace Open

variable {code code' : Code} {limit limit' : Nat} {j k : Jump} {js : List Jump}

/-- Code that is the same below the limit has the same open jumps. -/
theorem congr (h : Open code limit js) (hl : limit ≤ limit')
    (hc : ∀ p < limit, code'[p]? = code[p]?) : Open code' limit' js := by
  induction js generalizing limit limit' with
  | nil => trivial
  | cons j js ih =>
    obtain ⟨⟨op, hw, hop⟩, hstart, hlimit, hrest⟩ := h
    refine ⟨⟨op, hw, ?_⟩, hstart, Nat.le_trans hlimit hl, ?_⟩
    · rw [hc j.position (by omega), hop]
    · exact ih hrest (Nat.le_refl _) fun p hp => hc p (by omega)

theorem append (h : Open code code.size js) (bytes : List UInt8) :
    Open (code ++ bytes) (code ++ bytes).size js :=
  h.congr (by rw [Code.size_append]; omega) fun _ hp => Code.getElem?_append_left hp bytes

/-- A jump that has just been written. -/
theorem jump (h : Open code code.size js) {op : Opcode} (hw : op.widths = [2])
    {bytes : List UInt8} (hl : bytes.length = 3) (hop : bytes.head? = some op.code) :
    Open (code ++ bytes) (code ++ bytes).size (⟨code.size, (code ++ bytes).size⟩ :: js) := by
  refine ⟨⟨op, hw, ?_⟩, ?_, Nat.le_refl _, ?_⟩
  · rw [Code.getElem?_append_size, hop]
  · rw [Code.size_append, hl]
  · exact h.congr (Nat.le_refl _) fun _ hp => Code.getElem?_append_left hp bytes

/-- Code may be removed down to where the innermost branch begins. -/
theorem shrink (h : Open code code.size (j :: js)) {n : Nat} (hn : j.start ≤ n) :
    Open (code.shrink n) (code.shrink n).size (j :: js) := by
  obtain ⟨hop, hstart, hlimit, hrest⟩ := h
  have h' : Open code j.start (j :: js) := ⟨hop, hstart, Nat.le_refl _, hrest⟩
  refine h'.congr ?_ fun p hp => ?_
  · simp only [Array.shrink_eq_take, Array.take_eq_extract, Array.size_extract]
    omega
  · rw [Array.shrink_eq_take, Array.take_eq_extract, Array.getElem?_extract, if_pos (by omega),
      Nat.zero_add]

theorem size_overwrite (h : Open code limit (j :: js)) (hl : limit ≤ code.size)
    {bytes : List UInt8} (hb : bytes.length = 3) :
    (code.overwrite j.position bytes).size = code.size := by
  obtain ⟨-, hstart, hlimit, -⟩ := h
  exact Code.size_overwrite (by omega)

/-- The innermost jump gets its target. -/
theorem patch (h : Open code limit (j :: js)) (hl : limit ≤ code.size) {bytes : List UInt8}
    (hb : bytes.length = 3) : Open (code.overwrite j.position bytes) limit js := by
  obtain ⟨-, hstart, hlimit, hrest⟩ := h
  refine hrest.congr (by omega) fun p hp => ?_
  exact Code.getElem?_overwrite (by omega) (.inl hp)

/-- The jump around the innermost one gets its target. -/
theorem patch_outer (h : Open code limit (k :: j :: js)) (hl : limit ≤ code.size)
    {bytes : List UInt8} (hb : bytes.length = 3) :
    Open (code.overwrite j.position bytes) limit (k :: js) := by
  obtain ⟨⟨op, hw, hop⟩, hstart, hlimit, hrest⟩ := h
  have hj := hrest.2.2.1
  refine ⟨⟨op, hw, ?_⟩, hstart, hlimit, hrest.patch (by omega) hb⟩
  have hstart' := hrest.2.1
  rw [Code.getElem?_overwrite (by omega) (.inr (by omega)), hop]

end Open

/-- From `c`, the computation ends as `Q` says, or an operand does not fit. -/
structure Meets {α : Type} (x : CompileM α) (c : Compiler) (Q : α → Compiler → Prop) : Prop where
  ends : match x c with
    | .ok a c' => Q a c'
    | .error stop _ => stop.DoesNotFit

/-- The jumps that are open in a compilation, and the names that can be seen. -/
structure Compiler.Agrees (c : Compiler) (opened : List (List Jump)) (scopes : Scopes) : Prop where
  jumps : List.Forall₂ (fun em js => Open em.code em.code.size js) (c.emission :: c.outer) opened
  names : c.env.Shows scopes
  nested : c.outer.length = scopes.functions.length

namespace Compiler.Agrees

variable {c : Compiler} {opened rest : List (List Jump)} {js js' : List Jump} {scopes : Scopes}

theorem innermost (h : c.Agrees (js :: rest) scopes) :
    Open c.emission.code c.emission.code.size js :=
  (List.forall₂_cons.mp h.jumps).1

theorem emission (h : c.Agrees (js :: rest) scopes) {em : Emission}
    (hj : Open em.code em.code.size js') :
    { c with emission := em }.Agrees (js' :: rest) scopes := by
  obtain ⟨hjumps, hnames, hnested⟩ := h
  cases hjumps with
  | cons _ hrest => exact ⟨.cons hj hrest, hnames, hnested⟩

private theorem forget (h : c.Agrees (js :: rest) scopes) : c.Agrees ([] :: rest) scopes :=
  h.emission trivial

theorem emit (h : c.Agrees opened scopes) (op : Opcode) (bytes : List UInt8) :
    { c with emission := c.emission.emit op bytes }.Agrees opened scopes := by
  obtain ⟨hjumps, hnames, hnested⟩ := h
  cases hjumps with
  | cons hj hrest => exact ⟨.cons (hj.append bytes) hrest, hnames, hnested⟩

theorem constants (h : c.Agrees opened scopes) (constants : Array Value) :
    { c with constants }.Agrees opened scopes := ⟨h.jumps, h.names, h.nested⟩

end Compiler.Agrees

namespace Meets

variable {α β : Type} {x : CompileM α} {f : α → CompileM β} {c : Compiler}
  {Q Q' : α → Compiler → Prop} {opened rest : List (List Jump)} {js : List Jump} {j : Jump}
  {scopes : Scopes}

theorem bind {Q : β → Compiler → Prop} (h : Meets x c fun a c' => Meets (f a) c' Q) :
    Meets (x >>= f) c Q := by
  obtain ⟨h⟩ := h
  constructor
  rw [EStateM.bind_apply]
  cases hx : x c with
  | ok a c' =>
    rw [hx] at h
    exact h.ends
  | error e c' =>
    rw [hx] at h
    exact h

theorem mono (h : Meets x c Q) (hq : ∀ a c', Q a c' → Q' a c') : Meets x c Q' := by
  obtain ⟨h⟩ := h
  constructor
  cases hx : x c with
  | ok a c' =>
    rw [hx] at h
    exact hq a c' h
  | error e c' =>
    rw [hx] at h
    exact h

theorem discard {Q : Compiler → Prop} (h : Meets x c fun _ => Q) :
    Meets (Functor.discard x) c fun _ => Q := by
  rw [EStateM.discard_eq]
  exact bind (h.mono fun _ _ hq => ⟨hq⟩)

theorem of_eq {a : α} {c' : Compiler} (hx : x c = .ok a c') (h : Q a c') : Meets x c Q := by
  constructor
  rw [hx]
  exact h

theorem emission {Q : Emission → Compiler → Prop} (h : Q c.emission c) :
    Meets CompileM.emission c Q := ⟨h⟩

theorem emitAt {op : Opcode} {operands : List Int} {Q : Nat → Compiler → Prop}
    (hl : operands.length = op.widths.length)
    (h : ∀ bytes, op.encode (operands.map .int) = .ok bytes →
      Q c.emission.code.size { c with emission := c.emission.emit op bytes }) :
    Meets (CompileM.emitAt op operands) c Q := by
  constructor
  unfold CompileM.emitAt CompileM.emitOperands
  cases he : op.encode (operands.map .int) with
  | error e => exact Opcode.encode_error hl he
  | ok bytes => exact h bytes he

section Agrees

variable (h : c.Agrees opened scopes)
include h

theorem emit {op : Opcode} {operands : List Int} (hl : operands.length = op.widths.length) :
    Meets (CompileM.emit op operands) c fun _ c' => c'.Agrees opened scopes :=
  (emitAt hl fun bytes _ => h.emit op bytes).discard

theorem load (s : Symbol) :
    Meets (CompileM.load s) c fun _ c' => c'.Agrees opened scopes := by
  unfold CompileM.load
  split <;> exact emit h rfl

theorem store (s : Symbol) :
    Meets (CompileM.store s) c fun _ c' => c'.Agrees opened scopes := by
  unfold CompileM.store
  split <;> exact emit h rfl

theorem addConstant (v : Value) :
    Meets (CompileM.addConstant v) c fun _ c' => c'.Agrees opened scopes :=
  ⟨h.constants _⟩

theorem addFunction (g : Nat → Prototype) :
    Meets (CompileM.addFunction g) c fun _ c' => c'.Agrees opened scopes :=
  ⟨h.constants _⟩

theorem loads (symbols : List Symbol) :
    Meets (symbols.forM CompileM.load) c fun _ c' => c'.Agrees opened scopes := by
  induction symbols generalizing c with
  | nil => exact ⟨h⟩
  | cons s symbols ih => exact bind ((load h s).mono fun _ _ h' => ih h')

theorem makeFunction (name : Option String) (params : List Node) (table : Table) (code : Code) :
    Meets (makeFunction name params table code) c fun _ c' => c'.Agrees opened scopes := by
  unfold ClosureVM.makeFunction
  refine bind ((loads h table.free).mono fun _ c' h' => ?_)
  exact bind ((addFunction h' _).mono fun _ _ h'' => emit h'' rfl)

end Agrees

theorem editLast {g : Emission → Emission} {e : Emitted} {Q : Unit → Compiler → Prop}
    (he : c.emission.last = some e) (h : Q () { c with emission := g c.emission }) :
    Meets (CompileM.editLast g) c Q := by
  refine of_eq ?_ h
  simp [CompileM.editLast, he]

/-- The branch that ends loses its last instruction or gets one more. -/
theorem finishBranch (h : c.Agrees ((j :: js) :: rest) scopes) :
    Meets (finishBranch j.start) c fun _ c' => c'.Agrees ((j :: js) :: rest) scopes := by
  unfold ClosureVM.finishBranch
  refine bind (emission ?_)
  split
  · rename_i hlast
    cases he : c.emission.last with
    | none => simp [Emission.lastIsFrom, he] at hlast
    | some e =>
      have hfrom : j.start ≤ e.position := by
        simp [Emission.lastIsFrom, he] at hlast
        exact hlast.2
      have hcode : c.emission.removeLast.code = c.emission.code.shrink e.position := by
        simp [Emission.removeLast, he]
      refine editLast he (h.emission ?_)
      rw [hcode]
      exact h.innermost.shrink hfrom
  · exact emit h rfl

/-- What is written of a function is of no account once it is closed. -/
theorem compileReturn (h : c.Agrees (js :: rest) scopes) :
    Meets compileReturn c fun _ c' => c'.Agrees ([] :: rest) scopes := by
  have hrest : ∀ {c : Compiler}, c.Agrees ([] :: rest) scopes →
      Meets (do unless (← CompileM.emission).lastIs .returnValue do CompileM.emit .returnNull) c
        fun _ c' => c'.Agrees ([] :: rest) scopes := by
    intro c h
    refine bind (emission ?_)
    split
    · exact ⟨h⟩
    · exact emit h rfl
  unfold ClosureVM.compileReturn
  refine bind (emission ?_)
  split
  · rename_i hlast
    cases he : c.emission.last with
    | none => simp [Emission.lastIs, he] at hlast
    | some e =>
      -- this may write over an open jump, but none of them matters any more
      exact bind (editLast he (hrest (h.emission trivial)))
  · exact hrest h.forget

/-- An open jump can be given its target. -/
theorem patchHere {position : Nat} {op : Opcode} {Q : Unit → Compiler → Prop}
    (hw : op.widths = [2]) (hop : c.emission.code[position]? = some op.code)
    (h : ∀ bytes, bytes.length = 3 → Q () { c with emission := { c.emission with
      code := c.emission.code.overwrite position bytes } }) :
    Meets (CompileM.patchHere position) c Q := by
  have hat : c.emission.code.at? position = some op.code := by
    have hlt := (Array.getElem?_eq_some_iff.mp hop).1
    rw [Code.at?, place?_natCast, if_pos hlt, Option.bind_some, hop]
  constructor
  simp only [CompileM.patchHere, CompileM.patch, CompileM.position_apply, CompileM.emission_apply,
    CompileM.need_some, EStateM.bind_apply, hat, Opcode.ofByte?_code]
  cases he : op.encode [.int c.emission.code.size] with
  | error e => exact @Opcode.encode_error op [c.emission.code.size] e (by rw [hw]; rfl) he
  | ok bytes => exact h bytes (Opcode.length_encode_jump hw he)

theorem patchInner (h : c.Agrees ((j :: js) :: rest) scopes) :
    Meets (CompileM.patchHere j.position) c fun _ c' => c'.Agrees (js :: rest) scopes := by
  have hj := h.innermost
  obtain ⟨op, hw, hop⟩ := hj.1
  refine patchHere hw hop fun bytes hb => h.emission ?_
  dsimp only
  rw [Open.size_overwrite hj (Nat.le_refl _) hb]
  exact Open.patch hj (Nat.le_refl _) hb

theorem patchOuter {k : Jump} (h : c.Agrees ((k :: j :: js) :: rest) scopes) :
    Meets (CompileM.patchHere j.position) c fun _ c' =>
      c'.emission.code.size = c.emission.code.size ∧ c'.Agrees ((k :: js) :: rest) scopes := by
  have hk := h.innermost
  obtain ⟨-, hstart, hlimit, hj⟩ := hk
  obtain ⟨op, hw, hop⟩ := hj.1
  refine patchHere hw hop fun bytes hb => ?_
  have hsize := Open.size_overwrite hj (by omega) hb
  refine ⟨hsize, h.emission ?_⟩
  dsimp only
  rw [hsize]
  exact Open.patch_outer h.innermost (Nat.le_refl _) hb

/-- A jump without a target is open from then on. -/
theorem jump (h : c.Agrees (js :: rest) scopes) {op : Opcode} (hw : op.widths = [2]) :
    Meets (CompileM.emitAt op [unpatched]) c fun p c' =>
      c'.Agrees ((⟨p, c'.emission.code.size⟩ :: js) :: rest) scopes := by
  refine emitAt (by rw [hw]; rfl) fun bytes he => h.emission ?_
  obtain ⟨ns, -, -, hbytes⟩ := Opcode.encode_ok he
  exact h.innermost.jump hw (Opcode.length_encode_jump hw he) (by rw [hbytes]; rfl)

end Meets
end ClosureVM
