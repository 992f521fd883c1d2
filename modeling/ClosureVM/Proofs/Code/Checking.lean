import ClosureVM.Machine.State
import ClosureVM.Proofs.Code.Continuation
import ClosureVM.Value.Operation

/-! Code that keeps to its stack: how many values each piece takes and leaves, and that what it
refers to exists. -/
namespace ClosureVM

/-- What the code of a call can refer to. -/
structure Shape where
  numLocals : Nat
  numFree : Nat
  inFunction : Bool

/-- A shape that offers at least as much. -/
structure Shape.Grows (sh sh' : Shape) : Prop where
  numLocals : sh.numLocals ≤ sh'.numLocals
  numFree : sh.numFree ≤ sh'.numFree
  inFunction : sh.inFunction = sh'.inFunction

/-- The constants that code may push. -/
def Value.IsLiteral : Value → Prop
  | .int n => IsWord n
  | .str _ => True
  | _ => False

namespace Opcode

def isBinary : Opcode → Bool
  | add | sub | mul | div | equal | notEqual | greaterThan | index => true
  | _ => false

def isUnary : Opcode → Bool
  | bang | minus => true
  | _ => false

def isNullary : Opcode → Bool
  | pushTrue | pushFalse | pushNull => true
  | _ => false

end Opcode

/-- How many values an instruction takes off the stack and how many it puts on it. Closures are
apart, since they refer to other code. -/
inductive Instruction.Uses (pool : Array Value) (sh : Shape) : Instruction → Nat → Nat → Prop
  | constant {a : Nat} {v : Value} : pool[a]? = some v → v.IsLiteral →
    Uses pool sh ⟨.constant, [a]⟩ 0 1
  | binary {op : Opcode} : op.isBinary → Uses pool sh ⟨op, []⟩ 2 1
  | unary {op : Opcode} : op.isUnary → Uses pool sh ⟨op, []⟩ 1 1
  | nullary {op : Opcode} : op.isNullary → Uses pool sh ⟨op, []⟩ 0 1
  | pop : Uses pool sh ⟨.pop, []⟩ 1 0
  | getGlobal {a : Nat} : a < numGlobals → Uses pool sh ⟨.getGlobal, [a]⟩ 0 1
  | setGlobal {a : Nat} : a < numGlobals → Uses pool sh ⟨.setGlobal, [a]⟩ 1 0
  | getLocal {a : Nat} : a < sh.numLocals → Uses pool sh ⟨.getLocal, [a]⟩ 0 1
  | setLocal {a : Nat} : a < sh.numLocals → Uses pool sh ⟨.setLocal, [a]⟩ 1 0
  | getBuiltin {a : Nat} : a < Builtin.all.length → Uses pool sh ⟨.getBuiltin, [a]⟩ 0 1
  | getFree {a : Nat} : a < sh.numFree → Uses pool sh ⟨.getFree, [a]⟩ 0 1
  | currentClosure : sh.inFunction = true → Uses pool sh ⟨.currentClosure, []⟩ 0 1
  | array (n : Nat) : Uses pool sh ⟨.array, [n]⟩ n 1
  | hash {n : Nat} : n % 2 = 0 → Uses pool sh ⟨.hash, [n]⟩ n 1
  | call (n : Nat) : Uses pool sh ⟨.call, [n]⟩ (n + 1) 1
  | returnValue : sh.inFunction = true → Uses pool sh ⟨.returnValue, []⟩ 1 0
  | returnNull : sh.inFunction = true → Uses pool sh ⟨.returnNull, []⟩ 0 0

namespace Piece

/-- The instructions that end a call. -/
def IsReturn : Piece → Prop
  | .ins i => i.op = .returnValue ∨ i.op = .returnNull
  | _ => False

/-- Code that ends in a return. -/
def Returns (ps : List Piece) : Prop := ∃ p, ps.getLast? = some p ∧ p.IsReturn

/-- Code that takes the stack of its call from one height to another. -/
inductive Checked (pool : Array Value) : Shape → Nat → List Piece → Nat → Prop
  | nil {sh : Shape} {h : Nat} : Checked pool sh h [] h
  | ins {sh : Shape} {i : Instruction} {pops pushes h h' : Nat} {rest : List Piece} :
    i.Uses pool sh pops pushes → Checked pool sh (h + pushes) rest h' →
      Checked pool sh (h + pops) (.ins i :: rest) h'
  | closure {sh : Shape} {a n h h' e : Nat} {proto : Prototype} {body rest : List Piece} :
    pool[a]? = some (.function proto) → proto.HasBody body → Returns body →
      0 ≤ proto.numParams → proto.numParams ≤ proto.numLocals →
      Checked pool ⟨proto.numLocals.toNat, n, true⟩ 0 body e →
      Checked pool sh (h + 1) rest h' →
      Checked pool sh (h + n) (.op .closure [a, n] :: rest) h'
  | branch {sh : Shape} {h h' : Nat} {t e rest : List Piece} :
    Checked pool sh h t (h + 1) → Checked pool sh h e (h + 1) →
      Checked pool sh (h + 1) rest h' → Checked pool sh (h + 1) (.branch t e :: rest) h'
  | skip {sh : Shape} {h h' : Nat} {rest : List Piece} :
    Checked pool sh h rest h' → Checked pool sh h (.skip :: rest) h'

end Piece

/-- A function that can be called with `n` captured values. -/
def Prototype.Sound (pool : Array Value) (proto : Prototype) (n : Nat) : Prop :=
  ∃ body e, proto.HasBody body ∧ Piece.Returns body ∧ 0 ≤ proto.numParams ∧
    proto.numParams ≤ proto.numLocals ∧
    Piece.Checked pool ⟨proto.numLocals.toNat, n, true⟩ 0 body e

/-- One pool continues another. -/
def Extends (pool pool' : Array Value) : Prop := pool.toList <+: pool'.toList

namespace Extends

variable {pool pool' : Array Value}

theorem getElem? (h : Extends pool pool') {a : Nat} {v : Value} (hv : pool[a]? = some v) :
    pool'[a]? = some v := by
  rw [← Array.getElem?_toList] at hv ⊢
  obtain ⟨rest, hr⟩ := h
  rw [← hr, List.getElem?_append_left (List.getElem?_eq_some_iff.mp hv).1, hv]

theorem getElem?_of_lt (h : Extends pool pool') {a : Nat} (ha : a < pool.size) :
    pool'[a]? = pool[a]? :=
  (h.getElem? (Array.getElem?_eq_getElem ha)).trans (Array.getElem?_eq_getElem ha).symm

theorem mem (h : Extends pool pool') {v : Value} (hv : v ∈ pool) : v ∈ pool' := by
  rw [← Array.mem_toList_iff] at hv ⊢
  exact h.subset hv

theorem refl (pool : Array Value) : Extends pool pool := List.prefix_rfl

theorem trans {pool'' : Array Value} (h : Extends pool pool') (h' : Extends pool' pool'') :
    Extends pool pool'' := List.IsPrefix.trans h h'

theorem push (pool : Array Value) (v : Value) : Extends pool (pool.push v) := by
  rw [Extends, Array.toList_push]
  exact List.prefix_append ..

end Extends

namespace Instruction.Uses

theorem mono {pool pool' : Array Value} {sh sh' : Shape} {i : Instruction} {pops pushes : Nat}
    (h : i.Uses pool sh pops pushes) (hp : Extends pool pool') (hs : sh.Grows sh') :
    i.Uses pool' sh' pops pushes := by
  cases h with
  | constant hv hl => exact .constant (hp.getElem? hv) hl
  | binary h => exact .binary h
  | unary h => exact .unary h
  | nullary h => exact .nullary h
  | pop => exact .pop
  | getGlobal h => exact .getGlobal h
  | setGlobal h => exact .setGlobal h
  | getLocal h => exact .getLocal (Nat.lt_of_lt_of_le h hs.numLocals)
  | setLocal h => exact .setLocal (Nat.lt_of_lt_of_le h hs.numLocals)
  | getBuiltin h => exact .getBuiltin h
  | getFree h => exact .getFree (Nat.lt_of_lt_of_le h hs.numFree)
  | currentClosure h => exact .currentClosure (hs.inFunction ▸ h)
  | array => exact .array _
  | hash h => exact .hash h
  | call => exact .call _
  | returnValue h => exact .returnValue (hs.inFunction ▸ h)
  | returnNull h => exact .returnNull (hs.inFunction ▸ h)

end Instruction.Uses

namespace Piece

variable {pool pool' : Array Value} {sh sh' : Shape} {h h' h'' : Nat} {ps qs : List Piece}

/-- Checked code stays so when constants are added, or names in its scope. -/
theorem Checked.mono (hc : Checked pool sh h ps h') (hp : Extends pool pool')
    (hs : sh.Grows sh') : Checked pool' sh' h ps h' := by
  induction hc generalizing sh' with
  | nil => exact .nil
  | ins hu _ ih => exact .ins (hu.mono hp hs) (ih hs)
  | closure hv hb hr h₀ h₁ _ _ ihb ih =>
    exact .closure (hp.getElem? hv) hb hr h₀ h₁ (ihb ⟨Nat.le_refl _, Nat.le_refl _, rfl⟩) (ih hs)
  | branch _ _ _ iht ihe ih => exact .branch (iht hs) (ihe hs) (ih hs)
  | skip _ ih => exact .skip (ih hs)

theorem Checked.append (hc : Checked pool sh h ps h') (hc' : Checked pool sh h' qs h'') :
    Checked pool sh h (ps ++ qs) h'' := by
  induction hc with
  | nil => exact hc'
  | ins hu _ ih => exact .ins hu (ih hc')
  | closure hv hb hr h₀ h₁ hbody _ _ ih => exact .closure hv hb hr h₀ h₁ hbody (ih hc')
  | branch ht he _ _ _ ih => exact .branch ht he (ih hc')
  | skip _ ih => exact .skip (ih hc')

theorem Checked.height_nil (hc : Checked pool sh h [] h') : h = h' := by
  cases hc
  rfl

/-- Both parts of checked code are checked. -/
theorem Checked.of_append (hc : Checked pool sh h (ps ++ qs) h'') :
    ∃ h', Checked pool sh h ps h' ∧ Checked pool sh h' qs h'' := by
  induction ps generalizing h with
  | nil => exact ⟨h, .nil, hc⟩
  | cons p ps ih =>
    cases hc with
    | ins hu hr =>
      obtain ⟨h', h₁, h₂⟩ := ih hr
      exact ⟨h', .ins hu h₁, h₂⟩
    | closure hv hb hret h₀ hl hbody hr =>
      obtain ⟨h', h₁, h₂⟩ := ih hr
      exact ⟨h', .closure hv hb hret h₀ hl hbody h₁, h₂⟩
    | branch ht he hr =>
      obtain ⟨h', h₁, h₂⟩ := ih hr
      exact ⟨h', .branch ht he h₁, h₂⟩
    | skip hr =>
      obtain ⟨h', h₁, h₂⟩ := ih hr
      exact ⟨h', .skip h₁, h₂⟩

/-- One instruction behind checked code. -/
theorem Checked.snoc {i : Instruction} {pops pushes : Nat}
    (hc : Checked pool sh h ps (h' + pops)) (hu : i.Uses pool sh pops pushes) :
    Checked pool sh h (ps ++ [.ins i]) (h' + pushes) :=
  hc.append (.ins hu .nil)

end Piece

theorem Prototype.Sound.mono {pool pool' : Array Value} {proto : Prototype} {n : Nat}
    (h : proto.Sound pool n) (hp : Extends pool pool') : proto.Sound pool' n := by
  obtain ⟨body, e, hb, hr, h₀, h₁, hc⟩ := h
  exact ⟨body, e, hb, hr, h₀, h₁, hc.mono hp ⟨Nat.le_refl _, Nat.le_refl _, rfl⟩⟩

end ClosureVM
