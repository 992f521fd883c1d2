import Mathlib.Data.List.Induction
import ClosureVM.Proofs.Compiler.Translation
import ClosureVM.Proofs.Effects

/-! What the steps of a compilation write, in terms of structured code. -/
namespace ClosureVM

/-- The record of the last instruction once `ps` has been written, for code that does not end in
a choice. -/
def Emission.lastAfter (em : Emission) (ps : List Piece) : Option Emitted :=
  match ps.getLast? with
  | none => em.last
  | some (.ins i) => some ⟨i.op, em.code.size + Piece.totalSize ps.dropLast⟩
  | some _ => none

theorem Emission.lastAfter_append_of_ne_nil {em em' : Emission} {ps qs : List Piece}
    (hs : em'.code.size = em.code.size + Piece.totalSize ps) (hq : qs ≠ []) :
    em'.lastAfter qs = em.lastAfter (ps ++ qs) := by
  cases qs using List.reverseRecOn with
  | nil => exact absurd rfl hq
  | append_singleton qs q =>
    rw [← List.append_assoc]
    simp only [lastAfter, List.getLast?_append, List.getLast?_singleton, Option.some_or,
      List.dropLast_concat]
    cases q <;> simp [hs, Nat.add_assoc]

private theorem Emission.lastAfter_append {em em' : Emission} {ps : List Piece}
    (hl : em'.last = em.lastAfter ps) (hs : em'.code.size = em.code.size + Piece.totalSize ps)
    (qs : List Piece) : em'.lastAfter qs = em.lastAfter (ps ++ qs) := by
  by_cases hq : qs = []
  · subst hq
    rw [List.append_nil, ← hl]
    rfl
  · exact lastAfter_append_of_ne_nil hs hq

namespace CompileM

variable {c : Compiler} {name : String}

theorem resolve_of_none (hr : c.env.resolve? name = none) (line : Line) :
    resolve name line c = .error (.error ⟨.undefinedVariable name, line⟩) c := by
  rw [resolve, EStateM.bind_ok (EStateM.get_apply c), hr]
  rfl

theorem resolve_of_some {s : Symbol} {env : Environment}
    (hr : c.env.resolve? name = some (s, env)) (line : Line) :
    resolve name line c = .ok s { c with env } := by
  rw [resolve, EStateM.bind_ok (EStateM.get_apply c), hr]
  rfl

end CompileM

namespace Compiler

def draft (c : Compiler) : Draft := ⟨c.constants, c.env⟩

/-- Where the next instruction goes. -/
def position (c : Compiler) : Nat := c.emission.code.size

/-- The compilation after one more instruction. -/
def emitted (c : Compiler) (i : Instruction) : Compiler :=
  { c with emission := c.emission.emit i.op i.bytes }

/-- Every function that is being compiled has its unfinished code. -/
def Nested (c : Compiler) : Prop := c.outer.length = c.env.nested.length

/-- Code for `ps` has been added, and the draft is now `d`. Where it is `tracked`, the record of
the last instruction is known. -/
structure Writes (tracked : Bool) (c : Compiler) (ps : List Piece) (d : Draft) (c' : Compiler) : Prop where
  draft : c'.draft = d
  outer : c'.outer = c.outer
  nested : d.env.nested.length = c.env.nested.length
  code : c'.emission.code.toList = c.emission.code.toList ++ Piece.layout c.position ps
  fits : Piece.Fits c.position ps
  last : tracked = true → c'.emission.last = c.emission.lastAfter ps

namespace Writes

variable {b : Bool} {c c₁ c' : Compiler} {ps qs : List Piece} {d d' : Draft}

theorem nil (c : Compiler) : c.Writes b [] c.draft c :=
  ⟨rfl, rfl, rfl, by simp [Piece.layout], trivial, fun _ => rfl⟩

theorem env (h : c.Writes b ps d c') : c'.env = d.env := congrArg Draft.env h.draft

theorem isNested (h : c.Writes b ps d c') (hc : c.Nested) : c'.Nested := by
  rw [Nested, h.outer, h.env, h.nested]
  exact hc

theorem position_eq (h : c.Writes b ps d c') : c'.position = c.position + Piece.totalSize ps := by
  have := congrArg List.length h.code
  rw [List.length_append, Piece.length_layout h.fits, Array.length_toList,
    Array.length_toList] at this
  exact this

/-- The record of the last instruction is known if it is known behind the second part, unless
that part is empty. -/
theorem append {t t' : Bool} (h : c.Writes t ps d c₁) (h' : c₁.Writes t' qs d' c')
    (hb : b = true → t' = true ∧ (t = true ∨ qs ≠ [])) : c.Writes b (ps ++ qs) d' c' := by
  have hf := h'.fits
  have hc := h'.code
  have hn := h'.nested
  rw [h.position_eq] at hf hc
  rw [h.env] at hn
  refine ⟨h'.draft, h'.outer.trans h.outer, hn.trans h.nested, ?_,
    Piece.fits_append.mpr ⟨h.fits, hf⟩, fun ht => ?_⟩
  · rw [hc, h.code, Piece.layout_append, List.append_assoc]
  · obtain ⟨ht', hx⟩ := hb ht
    rw [h'.last ht']
    obtain ht | hq := hx
    · exact Emission.lastAfter_append (h.last ht) h.position_eq qs
    · exact Emission.lastAfter_append_of_ne_nil h.position_eq hq

theorem emitted (c : Compiler) {i : Instruction} (hp : i.op.isPlain) (hi : i.Encodable) :
    c.Writes b [.ins i] c.draft (c.emitted i) := by
  refine ⟨rfl, rfl, rfl, ?_, ⟨⟨hp, hi⟩, trivial⟩, fun _ => rfl⟩
  simp [Compiler.emitted, Emission.emit, Piece.layout, Piece.bytes]

end Writes
end Compiler

namespace CompileM

theorem emitAt_eq_ok {op : Opcode} {operands : List Int} {c c' : Compiler} {p : Nat} :
    emitAt op operands c = .ok p c' ↔
      ∃ ns : List Nat, operands = ns.map Nat.cast ∧ Instruction.Encodable ⟨op, ns⟩ ∧
        p = c.position ∧ c' = c.emitted ⟨op, ns⟩ := by
  unfold emitAt emitOperands
  constructor
  · intro h
    cases he : op.encode (operands.map .int) with
    | error e =>
      rw [he] at h
      cases h
    | ok bytes =>
      rw [he] at h
      obtain ⟨ns, ho, hi, rfl⟩ := Opcode.encode_ok he
      cases h
      exact ⟨ns, ho, hi, rfl, rfl⟩
  · rintro ⟨ns, rfl, hi, rfl, rfl⟩
    have he : op.encode ((ns.map Nat.cast).map .int) = .ok (Instruction.bytes ⟨op, ns⟩) := by
      rw [List.map_map]
      exact Opcode.encode_natCast hi
    rw [he]
    rfl

theorem emit_eq_ok {op : Opcode} {operands : List Int} {c c' : Compiler} :
    emit op operands c = .ok () c' ↔
      ∃ ns : List Nat, operands = ns.map Nat.cast ∧ Instruction.Encodable ⟨op, ns⟩ ∧
        c' = c.emitted ⟨op, ns⟩ := by
  have h : emit op operands c = .ok () c' ↔ ∃ p, emitAt op operands c = .ok p c' := by
    change (emitAt op operands >>= fun _ => pure ()) c = _ ↔ _
    rw [EStateM.bind_eq_ok]
    constructor
    · rintro ⟨p, c₁, hp, hc⟩
      cases hc
      exact ⟨p, hp⟩
    · rintro ⟨p, hp⟩
      exact ⟨p, c', hp, rfl⟩
  rw [h]
  constructor
  · rintro ⟨p, hp⟩
    obtain ⟨ns, ho, hi, -, hc⟩ := emitAt_eq_ok.mp hp
    exact ⟨ns, ho, hi, hc⟩
  · rintro ⟨ns, ho, hi, hc⟩
    exact ⟨c.position, emitAt_eq_ok.mpr ⟨ns, ho, hi, rfl, hc⟩⟩

end CompileM

namespace Code

/-- Writing bytes over as many others. -/
theorem toList_overwrite {code : Code} {front old back bytes : List UInt8}
    (h : code.toList = front ++ old ++ back) (hl : bytes.length = old.length) :
    (code.overwrite front.length bytes).toList = front ++ bytes ++ back := by
  induction bytes generalizing code front old with
  | nil =>
    obtain rfl : old = [] := List.length_eq_zero_iff.mp hl.symm
    exact h
  | cons b bytes ih =>
    cases old with
    | nil => cases hl
    | cons x old =>
      have hs : front.length < code.size := by
        rw [← Array.length_toList, h]
        simp
      have hset : (code.set front.length b).toList = front ++ [b] ++ old ++ back := by
        rw [Array.toList_set, h]
        simp
      have hr := ih hset (by simpa using hl)
      rw [overwrite, dif_pos hs]
      simpa using hr

theorem toList_replace {code : Code} {front old back bytes : List UInt8}
    (h : code.toList = front ++ old ++ back) (hl : bytes.length = old.length) {position : Int}
    (hp : position = front.length) :
    (code.replace position bytes).toList = front ++ bytes ++ back := by
  subst hp
  rw [replace, if_pos (by omega), Int.toNat_natCast]
  exact toList_overwrite h hl

theorem toList_shrink {code : Code} {front back : List UInt8}
    (h : code.toList = front ++ back) : (code.shrink front.length).toList = front := by
  simp [h]

end Code

/-- A step of the compiler writes the code that a relation between drafts describes, and
succeeds iff that code can be written. -/
structure Implements (tracked : Bool) (x : CompileM Unit) (T : Draft → List Piece → Draft → Prop) : Prop where
  sound {c c' : Compiler} : c.Nested → x c = .ok () c' →
    ∃ ps d, T c.draft ps d ∧ c.Writes tracked ps d c'
  complete {c : Compiler} {ps : List Piece} {d : Draft} : c.Nested → T c.draft ps d →
    Piece.Fits c.position ps → ∃ c', x c = .ok () c' ∧ c.Writes tracked ps d c'

namespace Implements

variable {b : Bool} {x y : CompileM Unit} {T U : Draft → List Piece → Draft → Prop}

theorem congr (h : Implements b x T) (hT : ∀ d ps d', T d ps d' ↔ U d ps d') : Implements b x U where
  sound hn hx := by
    obtain ⟨ps, d, ht, hw⟩ := h.sound hn hx
    exact ⟨ps, d, (hT _ _ _).mp ht, hw⟩
  complete hn hu hf := h.complete hn ((hT _ _ _).mpr hu) hf

theorem nil : Implements b (pure ()) fun d ps d' => ps = [] ∧ d' = d where
  sound {c c'} _ hx := by
    cases hx
    exact ⟨[], c.draft, ⟨rfl, rfl⟩, .nil c⟩
  complete {c ps d} _ ht _ := by
    obtain ⟨rfl, rfl⟩ := ht
    exact ⟨c, rfl, .nil c⟩

theorem seq {t t' : Bool} (hx : Implements t x T) (hy : Implements t' y U)
    (hb : b = true → t' = true ∧ (t = true ∨ ∀ d d', ¬ U d [] d')) :
    Implements b (x >>= fun _ => y) fun d ps d' =>
      ∃ d₁ qs rs, T d qs d₁ ∧ U d₁ rs d' ∧ ps = qs ++ rs where
  sound hn h := by
    obtain ⟨_, c₁, h₁, h₂⟩ := EStateM.bind_eq_ok.mp h
    obtain ⟨qs, d₁, ht, hw₁⟩ := hx.sound hn h₁
    obtain ⟨rs, d', hu, hw₂⟩ := hy.sound (hw₁.isNested hn) h₂
    rw [hw₁.draft] at hu
    refine ⟨qs ++ rs, d', ⟨d₁, qs, rs, ht, hu, rfl⟩, hw₁.append hw₂ fun ht => ?_⟩
    exact ⟨(hb ht).1, (hb ht).2.imp_right fun hne hnil => hne d₁ d' (hnil ▸ hu)⟩
  complete hn ht hf := by
    obtain ⟨d₁, qs, rs, ht, hu, rfl⟩ := ht
    obtain ⟨hf₁, hf₂⟩ := Piece.fits_append.mp hf
    obtain ⟨c₁, h₁, hw₁⟩ := hx.complete hn ht hf₁
    have hu₁ := hu
    rw [← hw₁.draft] at hu₁
    rw [← hw₁.position_eq] at hf₂
    obtain ⟨c', h₂, hw₂⟩ := hy.complete (hw₁.isNested hn) hu₁ hf₂
    refine ⟨c', by rw [EStateM.bind_ok h₁, h₂], hw₁.append hw₂ fun ht => ?_⟩
    exact ⟨(hb ht).1, (hb ht).2.imp_right fun hne hnil => hne d₁ _ (hnil ▸ hu)⟩

theorem emit {op : Opcode} (hp : op.isPlain) (operands : List Nat) :
    Implements b (CompileM.emit op (operands.map Nat.cast)) fun d ps d' =>
      ps = [.op op operands] ∧ d' = d where
  sound {c c'} _ h := by
    obtain ⟨ns, ho, hi, rfl⟩ := CompileM.emit_eq_ok.mp h
    obtain rfl : operands = ns :=
      List.map_injective_iff.mpr (fun _ _ hn => Int.natCast_inj.mp hn) ho
    exact ⟨_, _, ⟨rfl, rfl⟩, .emitted c hp hi⟩
  complete {c ps d} _ ht hf := by
    obtain ⟨rfl, rfl⟩ := ht
    exact ⟨_, CompileM.emit_eq_ok.mpr ⟨operands, rfl, hf.1.2, rfl⟩, .emitted c hp hf.1.2⟩

/-- An operand that is given as an integer must not be negative. -/
theorem emitIndex {op : Opcode} (hp : op.isPlain) (i : Int) :
    Implements b (CompileM.emit op [i]) fun d ps d' => 0 ≤ i ∧ ps = [.op op [i.toNat]] ∧ d' = d where
  sound {c c'} _ h := by
    obtain ⟨ns, ho, hi, rfl⟩ := CompileM.emit_eq_ok.mp h
    obtain ⟨n, rfl, rfl⟩ : ∃ n : Nat, ns = [n] ∧ i = n := by
      match ns, ho with
      | [n], ho => exact ⟨n, rfl, List.singleton_inj.mp ho⟩
    exact ⟨_, _, ⟨Int.natCast_nonneg n, rfl, rfl⟩, .emitted c hp hi⟩
  complete {c ps d} _ ht hf := by
    obtain ⟨hn, rfl, rfl⟩ := ht
    have ho : [i] = [i.toNat].map Nat.cast := by simp [Int.toNat_of_nonneg hn]
    exact ⟨_, CompileM.emit_eq_ok.mpr ⟨_, ho, hf.1.2, rfl⟩, .emitted c hp hf.1.2⟩

theorem load (s : Symbol) :
    Implements b (CompileM.load s) fun d ps d' => s.Loadable ∧ ps = [s.load] ∧ d' = d := by
  unfold CompileM.load Symbol.load Symbol.Loadable
  cases s.storage with
  | global | frame | builtin | free =>
    refine (emitIndex rfl s.index).congr fun d ps d' => ?_
    simp
  | self =>
    refine (emit rfl []).congr fun d ps d' => ?_
    simp

theorem store (s : Symbol) :
    Implements b (CompileM.store s) fun d ps d' => 0 ≤ s.index ∧ ps = [s.store] ∧ d' = d := by
  unfold CompileM.store Symbol.store
  cases s.storage <;> exact emitIndex rfl s.index

end Implements

namespace Compiler

def withDraft (c : Compiler) (d : Draft) : Compiler :=
  { c with constants := d.constants, env := d.env }

theorem Writes.of_withDraft {b : Bool} {c c' : Compiler} {ps : List Piece} {d d' : Draft}
    (h : (c.withDraft d).Writes b ps d' c') (hn : d.env.nested.length = c.env.nested.length) :
    c.Writes b ps d' c' :=
  ⟨h.draft, h.outer, h.nested.trans hn, h.code, h.fits, h.last⟩

end Compiler

/-- A step of the compiler that writes nothing: its result and the new draft depend on the draft
only. -/
def Acts {α : Type} (x : CompileM α) (f : Draft → Option (α × Draft)) : Prop :=
  ∀ c : Compiler, match f c.draft with
    | some (a, d) => x c = .ok a (c.withDraft d) ∧ d.env.nested.length = c.env.nested.length
    | none => ∃ e c', x c = .error e c'

theorem Implements.bind {b : Bool} {α : Type} {x : CompileM α} {f : Draft → Option (α × Draft)}
    {y : α → CompileM Unit} {T : α → Draft → List Piece → Draft → Prop} (hx : Acts x f)
    (hy : ∀ a, Implements b (y a) (T a)) :
    Implements b (x >>= y) fun d ps d' => ∃ a d₁, f d = some (a, d₁) ∧ T a d₁ ps d' where
  sound {c c'} hn h := by
    have hc := hx c
    cases hf : f c.draft with
    | none =>
      rw [hf] at hc
      obtain ⟨e, c₁, he⟩ := hc
      rw [EStateM.bind_apply, he] at h
      cases h
    | some r =>
      obtain ⟨a, d₁⟩ := r
      rw [hf] at hc
      rw [EStateM.bind_ok hc.1] at h
      have hn₁ : (c.withDraft d₁).Nested := hn.trans hc.2.symm
      obtain ⟨ps, d', ht, hw⟩ := (hy a).sound hn₁ h
      exact ⟨ps, d', ⟨a, d₁, rfl, ht⟩, hw.of_withDraft hc.2⟩
  complete {c ps d'} hn ht hfit := by
    obtain ⟨a, d₁, hf, ht⟩ := ht
    have hc := hx c
    rw [hf] at hc
    have hn₁ : (c.withDraft d₁).Nested := hn.trans hc.2.symm
    obtain ⟨c', h, hw⟩ := (hy a).complete (c := c.withDraft d₁) hn₁ ht hfit
    exact ⟨c', by rw [EStateM.bind_ok hc.1, h], hw.of_withDraft hc.2⟩

end ClosureVM
