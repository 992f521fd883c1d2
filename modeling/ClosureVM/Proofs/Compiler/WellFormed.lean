import ClosureVM.Proofs.Compiler.Interrupted
import ClosureVM.Proofs.Compiler.Naming
import ClosureVM.Proofs.Compiler.Ordered
import ClosureVM.Proofs.Session.History

/-! Code that is well-formed: it can be read to its end, jumps go forward to an instruction, and
what is named exists. Checked code is. -/
namespace ClosureVM

def Opcode.isJump : Opcode → Bool
  | .jump | .jumpNotTruthy => true
  | _ => false

/-- Opcodes that mean something in a function only. -/
def Opcode.needsCall : Opcode → Bool
  | .returnValue | .returnNull | .getLocal | .setLocal | .getFree | .currentClosure => true
  | _ => false

/-- What an instruction names exists. -/
def Instruction.InBounds (pool : Array Value) (numDefinitions numLocals numFree : Nat)
    (i : Instruction) : Prop :=
  match i.op with
  | .constant => ∃ a v, i.operands = [a] ∧ pool[a]? = some v ∧ v.IsLiteral
  | .closure => ∃ a n proto, i.operands = [a, n] ∧ pool[a]? = some (.function proto)
  | .getGlobal | .setGlobal => ∃ a, i.operands = [a] ∧ a < numDefinitions
  | .getLocal | .setLocal => ∃ a, i.operands = [a] ∧ a < numLocals
  | .getFree => ∃ a, i.operands = [a] ∧ a < numFree
  | .getBuiltin => ∃ a, i.operands = [a] ∧ a < 6
  | _ => True

/-- Code that can be read to its end, in which jumps go forward to an instruction and what is
named exists. -/
structure Code.WellFormed (pool : Array Value) (numDefinitions numLocals numFree : Nat)
    (code : Code) : Prop where
  decodes : code.listing.error = none
  inBounds : ∀ l ∈ code.listing.items,
    l.instruction.InBounds pool numDefinitions numLocals numFree
  jumps : ∀ l ∈ code.listing.items, l.instruction.op.isJump →
    ∃ target, l.instruction.operands = [target] ∧ l.offset < target ∧ target < code.size ∧
      ∃ l' ∈ code.listing.items, l'.offset = target

/-- The code of a program: nothing in it needs a call. -/
structure Code.IsProgram (pool : Array Value) (numDefinitions : Nat) (code : Code) : Prop where
  wellFormed : code.WellFormed pool numDefinitions 0 0
  needsNoCall : ∀ l ∈ code.listing.items, l.instruction.op.needsCall = false

/-- A function whose closures hold `n` values: its code ends in a return. -/
structure Prototype.IsFunction (pool : Array Value) (numDefinitions n : Nat)
    (proto : Prototype) : Prop where
  wellFormed : proto.code.WellFormed pool numDefinitions proto.numLocals.toNat n
  returns : ∃ l, proto.code.listing.items.back? = some l ∧
    (l.instruction.op = .returnValue ∨ l.instruction.op = .returnNull)
  numParams_nonneg : 0 ≤ proto.numParams
  numParams_le : proto.numParams ≤ proto.numLocals

private theorem Instruction.Uses.isJump_eq_false {pool : Array Value} {sh : Shape} {i : Instruction}
    {pops pushes : Nat} (hu : i.Uses pool sh pops pushes) : i.op.isJump = false := by
  cases hu with
  | @binary op hop | @unary op hop | @nullary op hop =>
    cases op <;> first | rfl | cases hop
  | _ => rfl

namespace Piece

/-- An instruction of checked code. -/
inductive Refers (pool : Array Value) (sh : Shape) : Instruction → Prop
  | jump {i : Instruction} {target : Nat} : i.op.isJump → i.target? = some target →
    i.operands = [target] → Refers pool sh i
  | uses {i : Instruction} {pops pushes : Nat} : i.Uses pool sh pops pushes → Refers pool sh i
  | closure {a n : Nat} {proto : Prototype} : pool[a]? = some (.function proto) →
    proto.Sound pool n → Refers pool sh ⟨.closure, [a, n]⟩

variable {pool : Array Value} {sh : Shape} {h h' n m position : Nat} {ps : List Piece}

theorem Checked.refers (hc : Checked pool sh h ps h') :
    ∀ l ∈ locateAll position ps, Refers pool sh l.instruction := by
  induction hc generalizing position with
  | nil => exact List.forall_mem_nil _
  | ins hu _ ih => exact List.forall_mem_cons.mpr ⟨.uses hu, ih⟩
  | closure hv hb hr h₀ h₁ hbody _ _ ih =>
    exact List.forall_mem_cons.mpr ⟨.closure hv ⟨_, _, hb, hr, h₀, h₁, hbody⟩, ih⟩
  | branch _ _ _ iht ihe ih =>
    rw [locateAll_branch]
    intro l hl
    simp only [List.mem_cons, List.mem_append] at hl
    obtain rfl | hl | rfl | hl | hl := hl
    · exact .jump rfl rfl rfl
    · exact iht l hl
    · exact .jump rfl rfl rfl
    · exact ihe l hl
    · exact ih l hl
  | skip _ ih => exact ih

/-- Functions that code makes closures of are in order where it ends. -/
theorem Ordered.closure_mem (ho : Ordered pool n ps m) {k j : Nat} :
    ∀ l ∈ locateAll position ps, l.instruction = ⟨.closure, [k, j]⟩ →
      ∃ proto body b, pool[k]? = some (.function proto) ∧ proto.HasBody body ∧
        Ordered pool b body b ∧ b ≤ m := by
  induction ho generalizing position with
  | nil => exact List.forall_mem_nil _
  | ins hi _ ih =>
    refine List.forall_mem_cons.mpr ⟨fun he => ?_, ih⟩
    dsimp only at he
    subst he
    cases hi
  | getGlobal _ _ ih | setGlobal _ ih => exact List.forall_mem_cons.mpr ⟨nofun, ih⟩
  | closure ha hb hbody hr _ ih =>
    refine List.forall_mem_cons.mpr ⟨fun he => ?_, ih⟩
    cases he
    exact ⟨_, _, _, ha, hb, hbody, hr.le⟩
  | branch ht he hr iht ihe ih =>
    have h₁ := he.le
    have h₂ := hr.le
    rw [locateAll_branch]
    intro l hl hk
    simp only [List.mem_cons, List.mem_append] at hl
    obtain rfl | hl | rfl | hl | hl := hl
    · cases hk
    · obtain ⟨proto, body, b, hp, hb, ho, hle⟩ := iht l hl hk
      exact ⟨proto, body, b, hp, hb, ho, by omega⟩
    · cases hk
    · obtain ⟨proto, body, b, hp, hb, ho, hle⟩ := ihe l hl hk
      exact ⟨proto, body, b, hp, hb, ho, by omega⟩
    · exact ih l hl hk
  | skip _ _ ih => exact ih

theorem Refers.inBounds {i : Instruction} {num : Nat} (hr : Refers pool sh i)
    (hg : ∀ a, i = ⟨.getGlobal, [a]⟩ ∨ i = ⟨.setGlobal, [a]⟩ → a < num) :
    i.InBounds pool num sh.numLocals sh.numFree := by
  unfold Instruction.InBounds
  cases hr with
  | @jump i _ hj _ _ =>
    cases ho : i.op <;> rw [ho] at hj <;> trivial
  | closure ha _ => exact ⟨_, _, _, rfl, ha⟩
  | uses hu =>
    cases hu with
    | constant hv hl => exact ⟨_, _, rfl, hv, hl⟩
    | @binary op hop | @unary op hop | @nullary op hop =>
      cases op <;> trivial
    | getGlobal _ => exact ⟨_, rfl, hg _ (.inl rfl)⟩
    | setGlobal _ => exact ⟨_, rfl, hg _ (.inr rfl)⟩
    | getLocal ha | setLocal ha | getFree ha | getBuiltin ha => exact ⟨_, rfl, ha⟩
    | pop | currentClosure _ | array | hash _ | call | returnValue _ | returnNull _ => trivial

/-- Outside of functions there is nothing that needs a call. -/
theorem Refers.needsCall_eq_false {i : Instruction} (hr : Refers pool ⟨0, 0, false⟩ i) :
    i.op.needsCall = false := by
  cases hr with
  | @jump i _ hj _ _ =>
    cases ho : i.op <;> rw [ho] at hj <;> first | rfl | cases hj
  | closure _ _ => rfl
  | uses hu =>
    cases hu with
    | @binary op hop | @unary op hop | @nullary op hop =>
      cases op <;> first | rfl | cases hop
    | getLocal ha | setLocal ha | getFree ha => exact absurd ha (Nat.not_lt_zero _)
    | currentClosure hf | returnValue hf | returnNull hf => cases hf
    | _ => rfl

private theorem Refers.target?_eq {i : Instruction} (hr : Refers pool sh i) (hj : i.op.isJump) :
    ∃ target, i.target? = some target ∧ i.operands = [target] := by
  cases hr with
  | jump _ ht ho => exact ⟨_, ht, ho⟩
  | closure _ _ => cases hj
  | uses hu =>
    rw [hu.isJump_eq_false] at hj
    cases hj

theorem EndsPlain.append {qs : List Piece} (hp : EndsPlain ps) (hq : EndsPlain qs) :
    EndsPlain (ps ++ qs) := by
  obtain rfl | ⟨rest, i, rfl⟩ := hq
  · rwa [List.append_nil]
  · exact .inr ⟨ps ++ rest, i, (List.append_assoc ..).symm⟩

theorem EndsPlain.concat (ps : List Piece) (i : Instruction) : EndsPlain (ps ++ [.ins i]) :=
  .inr ⟨ps, i, rfl⟩

private theorem EndsPlain.concat_store (ps : List Piece) (s : Symbol) :
    EndsPlain (ps ++ [s.store]) := by
  unfold Symbol.store
  cases s.storage <;> exact .concat ..

theorem Returns.exists_concat (hr : Returns ps) :
    ∃ qs i, ps = qs ++ [.ins i] ∧ (i.op = .returnValue ∨ i.op = .returnNull) := by
  obtain ⟨p, hp, hret⟩ := hr
  obtain ⟨qs, rfl⟩ := List.getLast?_eq_some_iff.mp hp
  cases p with
  | ins i => exact ⟨qs, i, rfl, hret⟩
  | branch t e => exact absurd hret id
  | skip => exact absurd hret id

end Piece

open Piece

/-- Statements end in an instruction of their own. -/
theorem Translates.endsPlain {phrase : Phrase} {d d' : Draft} {ps : List Piece}
    (h : Translates phrase d ps d') (hp : phrase.isStatement) : EndsPlain ps := by
  induction h with
  | exprStmt _ _ | returnValue _ _ _ => exact .concat ..
  | letStmt _ _ _ => exact .concat_store ..
  | returnNull _ => exact .concat [.op .pushNull] _
  | block _ ih => exact ih rfl
  | noStmts => exact .inl rfl
  | stmts _ _ ih ih' => exact (ih rfl).append (ih' rfl)
  | _ => cases hp

namespace Code

/-- The layout of code that is checked, and in order by the time that `num` globals are
bound. -/
structure Derives (pool : Array Value) (num : Nat) (sh : Shape) (ps : List Piece)
    (code : Code) : Prop where
  fits : Fits 0 ps
  layout : code = (Piece.layout 0 ps).toArray
  endsPlain : EndsPlain ps
  checked : ∃ e, Checked pool sh 0 ps e
  ordered : ∃ n m, Ordered pool n ps m ∧ m ≤ num

variable {pool pool' : Array Value} {num num' : Nat} {sh : Shape} {ps : List Piece} {code : Code}

theorem Derives.mono (h : code.Derives pool num sh ps) (hp : Extends pool pool')
    (hn : num ≤ num') : code.Derives pool' num' sh ps := by
  obtain ⟨e, hc⟩ := h.checked
  obtain ⟨n, m, ho, hm⟩ := h.ordered
  exact ⟨h.fits, h.layout, h.endsPlain,
    ⟨e, hc.mono hp ⟨Nat.le_refl _, Nat.le_refl _, rfl⟩⟩, n, m, ho.mono hp, Nat.le_trans hm hn⟩

theorem Derives.listing_eq (h : code.Derives pool num sh ps) :
    code.listing = ⟨(locateAll 0 ps).toArray, none⟩ := by
  rw [h.layout]
  exact listing_layout h.fits

theorem Derives.mem_items (h : code.Derives pool num sh ps) {l : Located} :
    l ∈ code.listing.items ↔ l ∈ locateAll 0 ps := by
  rw [h.listing_eq]
  exact List.mem_toArray

theorem Derives.refers (h : code.Derives pool num sh ps) :
    ∀ l ∈ code.listing.items, Refers pool sh l.instruction := by
  obtain ⟨e, hc⟩ := h.checked
  exact fun l hl => hc.refers l (h.mem_items.mp hl)

theorem Derives.wellFormed (h : code.Derives pool num sh ps) :
    code.WellFormed pool num sh.numLocals sh.numFree := by
  obtain ⟨n, m, ho, hm⟩ := h.ordered
  have hsize : code.size = totalSize ps := by
    rw [h.layout, List.size_toArray, length_layout h.fits]
  refine ⟨by rw [h.listing_eq], fun l hl => ?_, fun l hl hj => ?_⟩
  · refine (h.refers l hl).inBounds fun a ha => ?_
    exact Nat.lt_of_lt_of_le (ho.global_lt l (h.mem_items.mp hl) a ha) hm
  · obtain ⟨target, ht, hoperands⟩ := (h.refers l hl).target?_eq hj
    obtain ⟨hlt, hend, l', hl', ho'⟩ := h.endsPlain.target h.fits l (h.mem_items.mp hl) target ht
    exact ⟨target, hoperands, hlt, hsize ▸ hend, l', h.mem_items.mpr hl', ho'⟩

theorem Derives.isProgram (h : code.Derives pool num ⟨0, 0, false⟩ ps) :
    code.IsProgram pool num :=
  ⟨h.wellFormed, fun l hl => (h.refers l hl).needsCall_eq_false⟩

end Code

/-- A function in the pool whose code is checked for `n` captured values. -/
def Prototype.Derived (pool : Array Value) (num n : Nat) (proto : Prototype) : Prop :=
  0 ≤ proto.numParams ∧ proto.numParams ≤ proto.numLocals ∧
    ∃ body, Piece.Returns body ∧
      proto.code.Derives pool num ⟨proto.numLocals.toNat, n, true⟩ body

theorem Prototype.Derived.isFunction {pool : Array Value} {num n : Nat} {proto : Prototype}
    (h : proto.Derived pool num n) : proto.IsFunction pool num n := by
  obtain ⟨h₀, h₁, body, hr, hd⟩ := h
  refine ⟨hd.wellFormed, ?_, h₀, h₁⟩
  obtain ⟨qs, i, rfl, hi⟩ := hr.exists_concat
  refine ⟨⟨totalSize qs, i⟩, ?_, hi⟩
  rw [hd.listing_eq, locateAll_append, List.back?_toArray]
  simp [locateAll, locate]

/-- Functions that checked code makes closures of are checked in turn. -/
theorem Code.Derives.function {pool : Array Value} {num k : Nat} {sh : Shape} {ps : List Piece}
    {code : Code} (h : code.Derives pool num sh ps) {l : Located} (hl : l ∈ code.listing.items)
    (hk : l.instruction.closes? = some k) :
    ∃ n proto, l.instruction = ⟨.closure, [k, n]⟩ ∧ pool[k]? = some (.function proto) ∧
      proto.Derived pool num n := by
  obtain ⟨n, hi⟩ := Instruction.closes?_eq_some hk
  have hr := h.refers l hl
  obtain ⟨a, b, ho, hb⟩ := h.ordered
  obtain ⟨proto', body', c, hp', hbody', hc, hle⟩ := ho.closure_mem l (h.mem_items.mp hl) hi
  rw [hi] at hr
  cases hr with
  | jump hj _ _ => cases hj
  | uses hu => cases hu
  | @closure _ _ proto hp hs =>
    obtain ⟨body, e, hbody, hret, h₀, h₁, hcheck⟩ := hs
    obtain rfl : proto' = proto := by
      rw [hp] at hp'
      cases hp'
      rfl
    obtain rfl : body' = body := hbody'.unique hbody
    obtain ⟨qs, i, hqs, -⟩ := hret.exists_concat
    exact ⟨n, proto', hi, hp, h₀, h₁, body', hret, hbody.1, hbody.2, hqs ▸ .concat qs i,
      ⟨e, hcheck⟩, c, c, hc, by omega⟩

end ClosureVM
