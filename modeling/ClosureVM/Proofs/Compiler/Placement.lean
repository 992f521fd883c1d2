import ClosureVM.Proofs.Code.Heights
import ClosureVM.Proofs.Compiler.Checked

/-! Where in the code the parts of a program are, and how high the stack is around them. -/
namespace ClosureVM

namespace Opcode

/-- The instructions that push the value of a name. -/
def isLoad : Opcode → Bool
  | getGlobal | getLocal | getBuiltin | getFree | currentClosure => true
  | _ => false

/-- The instructions that bind a name. -/
def isStore : Opcode → Bool
  | setGlobal | setLocal => true
  | _ => false

end Opcode

/-- A part of a program with code of its own: a phrase, statements whose value stays on the stack
since their last `pop` is left out, a branch of a choice, or the body of a function. -/
inductive Region
  | phrase (p : Phrase)
  | kept (p : Phrase)
  | branch (statements : List Node)
  | body (statements : List Node)

/-- How many values the code of a region adds to the stack. -/
def Region.adds : Region → Nat
  | .phrase p => p.leaves
  | .kept _ | .branch _ => 1
  | .body _ => 0

/-- What code is made of: an instruction, the code of a region, a choice between two branches, or a
closure of a function that captures `numFree` values. -/
inductive Part
  | ins (i : Instruction)
  | region (r : Region)
  | choice (first second : List Node)
  | function (statements : List Node) (numFree : Nat)

namespace Part

abbrev op (op : Opcode) (operands : List Nat := []) : Part := .ins ⟨op, operands⟩

abbrev phrase (p : Phrase) : Part := .region (.phrase p)

def pops : Part → Nat
  | .ins i => i.pops
  | .region _ => 0
  | .choice .. => 1
  | .function _ numFree => numFree

def pushes : Part → Nat
  | .ins i => i.pushes
  | .region r => r.adds
  | .choice .. | .function .. => 1

/-- Parts that find what they take off the stack, and lead from one height to another. -/
def Lead : Nat → List Part → Nat → Prop
  | b, [], b' => b = b'
  | b, p :: rest, b' => p.pops ≤ b ∧ Lead (b - p.pops + p.pushes) rest b'

end Part

/-- What the code of a region is made of. -/
inductive Region.Consists (pool : Array Value) : Region → List Part → Prop
  | exprStmt {line : Line} {expr : Node} :
    Consists pool (.phrase (.stmt (.exprStmt line expr))) [.phrase (.expr expr), .op .pop]
  | letStmt {line : Line} {target value : Node} {name : String} {i : Instruction} :
    target.name? = some name → i.op.isStore →
      Consists pool (.phrase (.stmt (.letStmt line target value)))
        [.phrase (.expr (value.boundTo name)), .ins i]
  | returnNull {line : Line} :
    Consists pool (.phrase (.stmt (.returnStmt line none))) [.op .pushNull, .op .returnValue]
  | returnValue {line : Line} {value : Node} :
    Consists pool (.phrase (.stmt (.returnStmt line (some value))))
      [.phrase (.expr value), .op .returnValue]
  | block {line : Line} {statements : List Node} :
    Consists pool (.phrase (.stmt (.block line statements))) [.phrase (.stmts statements)]
  | noStmts : Consists pool (.phrase (.stmts [])) []
  | stmts {node : Node} {rest : List Node} :
    Consists pool (.phrase (.stmts (node :: rest))) [.phrase (.stmt node), .phrase (.stmts rest)]
  | intLit {line : Line} {n : Int} {a : Nat} :
    pool[a]? = some (.int n) →
      Consists pool (.phrase (.expr (.intLit line (.int n)))) [.op .constant [a]]
  | strLit {line : Line} {s : String} {a : Nat} :
    pool[a]? = some (.str s) →
      Consists pool (.phrase (.expr (.strLit line s))) [.op .constant [a]]
  | boolLit {line : Line} {b : Bool} :
    Consists pool (.phrase (.expr (.boolLit line b))) [.op (if b then .pushTrue else .pushFalse)]
  | ident {line : Line} {name : String} {i : Instruction} :
    i.op.isLoad → Consists pool (.phrase (.expr (.ident line name))) [.ins i]
  | unary {line : Line} {op : String} {right : Node} {code : Opcode} :
    unaryOpcode? op = some code →
      Consists pool (.phrase (.expr (.unary line op right))) [.phrase (.expr right), .op code]
  | less {line : Line} {left right : Node} :
    Consists pool (.phrase (.expr (.binary line left "<" right)))
      [.phrase (.expr right), .phrase (.expr left), .op .greaterThan]
  | binary {line : Line} {left right : Node} {op : String} {code : Opcode} :
    op ≠ "<" → binaryOpcode? op = some code →
      Consists pool (.phrase (.expr (.binary line left op right)))
        [.phrase (.expr left), .phrase (.expr right), .op code]
  | ifExpr {line : Line} {condition : Node} {consequence alternative : Option Node}
    {first second : List Node} :
    Node.branchStatements? consequence = some first →
      Node.branchStatements? alternative = some second →
      Consists pool (.phrase (.expr (.ifExpr line condition consequence alternative)))
        [.phrase (.expr condition), .choice first second]
  | fnLit {line : Line} {params : List Node} {body : Node} {statements : List Node}
    {name : Option String} {loads : List Instruction} :
    body.statements? = some statements → (∀ i ∈ loads, i.op.isLoad) →
      Consists pool (.phrase (.expr (.fnLit line params body name)))
        (loads.map .ins ++ [.function statements loads.length])
  | call {line : Line} {callee : Node} {args : List Node} :
    Consists pool (.phrase (.expr (.call line callee args)))
      [.phrase (.expr callee), .phrase (.exprs args), .op .call [args.length]]
  | arrayLit {line : Line} {elements : List Node} :
    Consists pool (.phrase (.expr (.arrayLit line elements)))
      [.phrase (.exprs elements), .op .array [elements.length]]
  | hashLit {line : Line} {pairs : List (Node × Node)} :
    Consists pool (.phrase (.expr (.hashLit line pairs)))
      [.phrase (.pairs pairs), .op .hash [pairs.length * 2]]
  | index {line : Line} {left sub : Node} :
    Consists pool (.phrase (.expr (.index line left sub)))
      [.phrase (.expr left), .phrase (.expr sub), .op .index]
  | noExprs : Consists pool (.phrase (.exprs [])) []
  | exprs {node : Node} {rest : List Node} :
    Consists pool (.phrase (.exprs (node :: rest))) [.phrase (.expr node), .phrase (.exprs rest)]
  | noPairs : Consists pool (.phrase (.pairs [])) []
  | pairs {key value : Node} {rest : List (Node × Node)} :
    Consists pool (.phrase (.pairs ((key, value) :: rest)))
      [.phrase (.expr key), .phrase (.expr value), .phrase (.pairs rest)]
  | keptExpr {line : Line} {expr : Node} :
    Consists pool (.kept (.stmt (.exprStmt line expr))) [.phrase (.expr expr)]
  | keptBlock {line : Line} {statements : List Node} :
    Consists pool (.kept (.stmt (.block line statements))) [.region (.kept (.stmts statements))]
  /-- The statements behind the one whose value is kept are empty blocks, and have no code. -/
  | keptHead {node : Node} {rest : List Node} :
    Consists pool (.kept (.stmts (node :: rest)))
      [.region (.kept (.stmt node)), .phrase (.stmts rest)]
  | keptRest {node : Node} {rest : List Node} :
    Consists pool (.kept (.stmts (node :: rest)))
      [.phrase (.stmt node), .region (.kept (.stmts rest))]
  | branchKept {statements : List Node} :
    Consists pool (.branch statements) [.region (.kept (.stmts statements))]
  | branchNull {statements : List Node} :
    Consists pool (.branch statements) [.phrase (.stmts statements), .op .pushNull]
  | bodyKept {statements : List Node} :
    Consists pool (.body statements) [.region (.kept (.stmts statements)), .op .returnValue]
  | bodyReturn {statements : List Node} :
    Consists pool (.body statements) [.phrase (.stmts statements)]
  | bodyNull {statements : List Node} :
    Consists pool (.body statements) [.phrase (.stmts statements), .op .returnNull]

/-- The code from `lo` up to `hi` is made of the given parts. The code of a function is the whole of
another stream. -/
inductive Placed (pool : Array Value) : Code → List Part → Nat → Nat → Prop
  | nil {code : Code} {lo : Nat} : Placed pool code [] lo lo
  | ins {code : Code} {i : Instruction} {rest : List Part} {lo hi : Nat} :
    code.Shows lo i → i.op.isPlain → Placed pool code rest (lo + i.size) hi →
      Placed pool code (.ins i :: rest) lo hi
  | region {code : Code} {r : Region} {parts rest : List Part} {lo mid hi : Nat} :
    r.Consists pool parts → Placed pool code parts lo mid → Placed pool code rest mid hi →
      Placed pool code (.region r :: rest) lo hi
  | choice {code : Code} {first second : List Node} {rest : List Part} {lo b mid hi : Nat} :
    code.Shows lo ⟨.jumpNotTruthy, [b + 3]⟩ →
      Placed pool code [.region (.branch first)] (lo + 3) b →
      code.Shows b ⟨.jump, [mid]⟩ →
      Placed pool code [.region (.branch second)] (b + 3) mid → Placed pool code rest mid hi →
      Placed pool code (.choice first second :: rest) lo hi
  | function {code : Code} {statements : List Node} {a n : Nat} {proto : Prototype}
    {rest : List Part} {lo hi : Nat} :
    code.Shows lo ⟨.closure, [a, n]⟩ → pool[a]? = some (.function proto) →
      Placed pool proto.code [.region (.body statements)] 0 proto.code.size →
      Placed pool code rest (lo + 4) hi → Placed pool code (.function statements n :: rest) lo hi

section Effects

private theorem Opcode.isBinary_effect {op : Opcode} (h : op.isBinary) :
    Instruction.pops ⟨op, []⟩ = 2 ∧ Instruction.pushes ⟨op, []⟩ = 1 := by
  cases op <;> first | exact ⟨rfl, rfl⟩ | cases h

private theorem Opcode.isUnary_effect {op : Opcode} (h : op.isUnary) :
    Instruction.pops ⟨op, []⟩ = 1 ∧ Instruction.pushes ⟨op, []⟩ = 1 := by
  cases op <;> first | exact ⟨rfl, rfl⟩ | cases h

theorem Opcode.isLoad_effect {i : Instruction} (h : i.op.isLoad) : i.pops = 0 ∧ i.pushes = 1 := by
  obtain ⟨op, operands⟩ := i
  cases op <;> first | exact ⟨rfl, rfl⟩ | cases h

private theorem Opcode.isStore_effect {i : Instruction} (h : i.op.isStore) :
    i.pops = 1 ∧ i.pushes = 0 := by
  obtain ⟨op, operands⟩ := i
  cases op <;> first | exact ⟨rfl, rfl⟩ | cases h

/-- Loads add a value each. -/
theorem Part.lead_loads {loads : List Instruction} (hl : ∀ i ∈ loads, i.op.isLoad)
    {rest : List Part} {b b' : Nat} (h : Lead (b + loads.length) rest b') :
    Lead b (loads.map .ins ++ rest) b' := by
  induction loads generalizing b with
  | nil => exact h
  | cons i loads ih =>
    obtain ⟨hi, hl⟩ := List.forall_mem_cons.mp hl
    obtain ⟨hpops, hpushes⟩ := Opcode.isLoad_effect hi
    refine ⟨?_, ih hl ?_⟩
    · rw [pops, hpops]
      exact Nat.zero_le b
    · rw [pops, pushes, hpops, hpushes, Nat.sub_zero]
      rw [List.length_cons, Nat.add_comm loads.length, ← Nat.add_assoc] at h
      exact h

/-- Whatever is on the stack, the code of a region adds to it what it should. -/
theorem Region.Consists.lead {pool : Array Value} {r : Region} {parts : List Part}
    (h : r.Consists pool parts) (b : Nat) : Part.Lead b parts (b + r.adds) := by
  cases h with
  | letStmt _ hi =>
    have := Opcode.isStore_effect hi
    simp only [Part.Lead, Part.pops, Part.pushes, adds, Phrase.leaves]
    omega
  | ident hi =>
    have := Opcode.isLoad_effect hi
    simp only [Part.Lead, Part.pops, Part.pushes, adds, Phrase.leaves]
    omega
  | unary hop =>
    have := Opcode.isUnary_effect (isUnary_of_unaryOpcode? hop)
    simp only [Part.Lead, Part.pops, Part.pushes, adds, Phrase.leaves]
    omega
  | binary _ hop =>
    have := Opcode.isBinary_effect (isBinary_of_binaryOpcode? hop)
    simp only [Part.Lead, Part.pops, Part.pushes, adds, Phrase.leaves]
    omega
  | @boolLit _ value => cases value <;> exact ⟨Nat.zero_le b, rfl⟩
  | fnLit _ hl =>
    apply Part.lead_loads hl
    simp only [Part.Lead, Part.pops, Part.pushes, adds, Phrase.leaves]
    omega
  | _ =>
    simp only [Part.Lead, Part.pops, Part.pushes, Instruction.pops, Instruction.pushes, adds,
      Phrase.leaves, List.getD_cons_zero, List.length_cons, List.length_nil, Nat.add_mul]
    omega

end Effects

namespace Placed

variable {pool : Array Value} {code : Code} {parts parts' : List Part} {lo mid hi b b' : Nat}
  {height : Nat → Nat}

theorem append (h : Placed pool code parts lo mid) (h' : Placed pool code parts' mid hi) :
    Placed pool code (parts ++ parts') lo hi := by
  induction h with
  | nil => exact h'
  | ins hi hp _ ih => exact .ins hi hp (ih h')
  | region hr hparts _ _ ih => exact .region hr hparts (ih h')
  | choice hj hfirst hj' hsecond _ _ _ ih => exact .choice hj hfirst hj' hsecond (ih h')
  | function hi hv hbody _ _ ih => exact .function hi hv hbody (ih h')

theorem le (h : Placed pool code parts lo hi) : lo ≤ hi := by
  induction h with
  | nil => exact Nat.le_refl _
  | function _ _ _ _ _ ih => omega
  | _ => omega

/-- Code leads to its end and not further. -/
theorem encloses (h : Placed pool code parts lo hi) (hr : code.listing.error = none) :
    code.Encloses lo hi := by
  induction h with
  | nil => exact Code.encloses_nil _ _
  | ins hi hp hrest ih =>
    exact (hi.encloses hr hp).append (ih hr) (Nat.le_add_right ..) hrest.le
  | region _ hparts hrest ih₁ ih₂ => exact (ih₁ hr).append (ih₂ hr) hparts.le hrest.le
  | @choice code first second rest lo b mid hi hj hfirst hj' hsecond hrest ih₁ ih₂ ih₃ =>
    have hle₁ := hfirst.le
    have hle₂ := hsecond.le
    have hchoice := Code.encloses_choice hr hj hj' (ih₁ hr) (ih₂ hr) hle₁ hle₂
    exact hchoice.append (ih₃ hr) (by omega) hrest.le
  | function hi _ _ hrest _ ih =>
    exact (hi.encloses hr rfl).append (ih hr) (Nat.le_add_right ..) hrest.le

/-- Heights that agree with all instructions rise as the parts say. -/
theorem height_eq (h : Placed pool code parts lo hi) (hs : code.Steady height lo hi)
    (hlead : Part.Lead (height lo) parts b') : height hi = b' := by
  induction h generalizing b' with
  | nil => exact hlead
  | @ins code i rest lo hi hshow hp hrest ih =>
    have hpos : 0 < i.size := i.op.size_pos
    have hle := hrest.le
    have hnext := (hs _ hshow (Nat.le_refl _) (show lo < hi by omega)).onward fun hop => by
      rw [show i.op = .jump from hop] at hp
      cases hp
    apply ih (hs.mono (by omega) (Nat.le_refl _))
    rw [hnext]
    exact hlead.2
  | region hr hparts hrest ih₁ ih₂ =>
    have hmid := ih₁ (hs.mono (Nat.le_refl _) hrest.le) (hr.lead _)
    apply ih₂ (hs.mono hparts.le (Nat.le_refl _))
    rw [hmid]
    exact hlead.2
  | @choice code first second rest lo b mid hi hj hfirst hj' hsecond hrest ih₁ ih₂ ih₃ =>
    have hle₁ := hfirst.le
    have hle₂ := hsecond.le
    have hle₃ := hrest.le
    have hagree := hs _ hj (Nat.le_refl _) (show lo < hi by omega)
    have htarget : height (b + 3) = height lo - 1 := hagree.jumps (b + 3) rfl
    have hmid : height mid = height (b + 3) + 1 :=
      ih₂ (hs.mono (by omega) hle₃) ⟨Nat.zero_le _, rfl⟩
    apply ih₃ (hs.mono (by omega) (Nat.le_refl _))
    rw [hmid, htarget]
    exact hlead.2
  | @function code statements a n proto rest lo hi hshow _ _ hrest _ ih =>
    have hle := hrest.le
    have hagrees := hs _ hshow (Nat.le_refl _) (show lo < hi by omega)
    have hnext := hagrees.onward fun hop => by cases hop
    apply ih (hs.mono (by omega) (Nat.le_refl _))
    rw [show height (lo + 4) = _ from hnext]
    exact hlead.2

/-- There are heights from any height on that has what the parts take. -/
theorem exists_height (h : Placed pool code parts lo hi) (hr : code.listing.error = none)
    (hlead : Part.Lead b parts b') : ∃ height, height lo = b ∧ code.Steady height lo hi := by
  induction h generalizing b b' with
  | @nil code lo => exact ⟨fun _ => b, rfl, code.steady_nil _ lo⟩
  | ins hshow hp hrest ih =>
    obtain ⟨first, hstart, hmid, hfirst⟩ := hshow.steady hr hp hlead.1
    obtain ⟨second, hmid', hsecond⟩ := ih hr hlead.2
    obtain ⟨height, heq, hsteady⟩ := hfirst.append hsecond (hshow.encloses hr hp)
      (hrest.encloses hr) (hmid.trans hmid'.symm)
    exact ⟨height, (heq _ (Nat.le_add_right ..)).trans hstart, hsteady⟩
  | region hc hparts hrest ih₁ ih₂ =>
    obtain ⟨first, hstart, hfirst⟩ := ih₁ hr (hc.lead b)
    obtain ⟨second, hmid', hsecond⟩ := ih₂ hr hlead.2
    have hmid := hparts.height_eq hfirst (hc.lead _)
    rw [hstart] at hmid
    obtain ⟨height, heq, hsteady⟩ := hfirst.append hsecond (hparts.encloses hr)
      (hrest.encloses hr) (hmid.trans hmid'.symm)
    exact ⟨height, (heq _ hparts.le).trans hstart, hsteady⟩
  | @choice code first second rest lo c mid hi hj hfirst hj' hsecond hrest ih₁ ih₂ ih₃ =>
    obtain ⟨one, hone, hs₁⟩ := ih₁ hr (b := b - 1) ⟨Nat.zero_le _, rfl⟩
    obtain ⟨two, htwo, hs₂⟩ := ih₂ hr (b := b - 1) ⟨Nat.zero_le _, rfl⟩
    obtain ⟨three, hthree, hs₃⟩ := ih₃ hr hlead.2
    have hone' := hfirst.height_eq hs₁ ⟨Nat.zero_le _, rfl⟩
    have htwo' := hsecond.height_eq hs₂ ⟨Nat.zero_le _, rfl⟩
    have he₁ := hfirst.encloses hr
    have he₂ := hsecond.encloses hr
    have hb : 1 ≤ b := hlead.1
    have hone'' : one c = b := by
      rw [hone', hone]
      exact Nat.sub_add_cancel hb
    obtain ⟨both, hstart, hmid, hboth⟩ := Code.steady_choice hr hj hj' he₁ he₂ hfirst.le
      hsecond.le hs₁ hs₂ hone' htwo' (hone.trans htwo.symm)
    have heq : both mid = three mid := by
      rw [hmid, hone'', hthree]
      exact (Nat.sub_add_cancel hb).symm
    obtain ⟨height, hle, hsteady⟩ := hboth.append hs₃
      (Code.encloses_choice hr hj hj' he₁ he₂ hfirst.le hsecond.le) (hrest.encloses hr) heq
    have hle₁ := hfirst.le
    have hle₂ := hsecond.le
    exact ⟨height, (hle lo (by omega)).trans (hstart.trans hone''), hsteady⟩
  | function hshow _ _ hrest _ ih =>
    obtain ⟨first, hstart, hmid, hfirst⟩ := hshow.steady hr rfl hlead.1
    obtain ⟨second, hmid', hsecond⟩ := ih hr hlead.2
    obtain ⟨height, heq, hsteady⟩ := hfirst.append hsecond (hshow.encloses hr rfl)
      (hrest.encloses hr) (hmid.trans hmid'.symm)
    exact ⟨height, (heq _ (Nat.le_add_right ..)).trans hstart, hsteady⟩

end Placed

end ClosureVM
