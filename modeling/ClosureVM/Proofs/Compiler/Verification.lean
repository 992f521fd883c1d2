import ClosureVM.Proofs.Compiler.Composition
import ClosureVM.Proofs.Compiler.Correspondence
import ClosureVM.Proofs.Compiler.Placement
import ClosureVM.Proofs.Evaluation.Endings

/-! The code of a program is placed as its tree says, and passes verification. -/
namespace ClosureVM

/-- The listing has the instructions of the pieces from `position` on. -/
def Code.ShowsAll (code : Code) (position : Nat) (ps : List Piece) : Prop :=
  ∀ l ∈ Piece.locateAll position ps, l ∈ code.listing.items

theorem Opcode.isPlain_of_isLoad {op : Opcode} (h : op.isLoad) : op.isPlain := by
  cases op <;> first | rfl | cases h

theorem Opcode.isPlain_of_isInert {op : Opcode} (h : op.isInert) : op.isPlain := by
  cases op <;> first | rfl | cases h

theorem Symbol.exists_load (s : Symbol) : ∃ i, s.load = .ins i ∧ i.op.isLoad := by
  unfold Symbol.load
  split <;> exact ⟨_, rfl, rfl⟩

private theorem Symbol.exists_store (s : Symbol) :
    ∃ i, s.store = .ins i ∧ i.op.isStore ∧ i.op.isPlain := by
  unfold Symbol.store
  split <;> exact ⟨_, rfl, rfl, rfl⟩

private theorem Symbol.exists_loads (symbols : List Symbol) :
    ∃ loads : List Instruction, symbols.map Symbol.load = loads.map .ins ∧
      (∀ i ∈ loads, i.op.isLoad) ∧ loads.length = symbols.length := by
  induction symbols with
  | nil => exact ⟨[], rfl, List.forall_mem_nil _, rfl⟩
  | cons s symbols ih =>
    obtain ⟨i, hi, hload⟩ := s.exists_load
    obtain ⟨loads, hloads, hall, hlen⟩ := ih
    refine ⟨i :: loads, ?_, List.forall_mem_cons.mpr ⟨hload, hall⟩, by simp [hlen]⟩
    rw [List.map_cons, List.map_cons, hi, hloads]

/-- Code that can be read, and is the code of a region from its start to its end. -/
structure Code.Embodies (pool : Array Value) (code : Code) (r : Region) : Prop where
  reads : code.listing.error = none
  placed : Placed pool code [.region r] 0 code.size

namespace Piece

/-- Wherever they are listed, the pieces are made of the given parts. -/
def Forms (pool : Array Value) (ps : List Piece) (parts : List Part) : Prop :=
  ∀ (code : Code) (position : Nat), code.ShowsAll position ps →
    Placed pool code parts position (position + totalSize ps)

namespace Forms

variable {pool : Array Value} {ps qs : List Piece} {parts parts' : List Part}

theorem nil : Forms pool [] [] := fun _ _ _ => .nil

theorem append (h : Forms pool ps parts) (h' : Forms pool qs parts') :
    Forms pool (ps ++ qs) (parts ++ parts') := by
  intro code position hs
  rw [Code.ShowsAll, locateAll_append] at hs
  obtain ⟨hps, hqs⟩ := List.forall_mem_append.mp hs
  rw [totalSize_append, ← Nat.add_assoc]
  exact (h code position hps).append (h' code _ hqs)

theorem ins {i : Instruction} (hp : i.op.isPlain) : Forms pool [.ins i] [.ins i] :=
  fun _ _ hs => .ins (hs _ List.mem_cons_self) hp .nil

theorem region (h : Forms pool ps parts) {r : Region} (hr : r.Consists pool parts) :
    Forms pool ps [.region r] := fun code position hs => .region hr (h code position hs) .nil

theorem loads {is : List Instruction} (hl : ∀ i ∈ is, i.op.isLoad) :
    Forms pool (is.map .ins) (is.map .ins) := by
  induction is with
  | nil => exact nil
  | cons i is ih =>
    obtain ⟨hi, hl⟩ := List.forall_mem_cons.mp hl
    exact (ins (Opcode.isPlain_of_isLoad hi)).append (ih hl)

theorem choice {first second : List Node} (h : Forms pool ps [.region (.branch first)])
    (h' : Forms pool qs [.region (.branch second)]) :
    Forms pool [.branch ps qs] [.choice first second] := by
  intro code position hs
  rw [Code.ShowsAll, locateAll_branch] at hs
  obtain ⟨hj, hs⟩ := List.forall_mem_cons.mp hs
  obtain ⟨hps, hs⟩ := List.forall_mem_append.mp hs
  obtain ⟨hj', hs⟩ := List.forall_mem_cons.mp hs
  obtain ⟨hqs, -⟩ := List.forall_mem_append.mp hs
  have hend : position + totalSize [.branch ps qs] =
      position + 3 + totalSize ps + 3 + totalSize qs := by
    simp only [totalSize, size]
    omega
  rw [hend]
  exact .choice hj (h code _ hps) hj' (h' code _ hqs) .nil

/-- Pieces that are laid out make up the whole of their code. -/
theorem embodies {r : Region} (h : Forms pool ps [.region r]) (hf : Fits 0 ps) :
    Code.Embodies pool (layout 0 ps).toArray r := by
  have hlisting := Code.listing_layout hf
  have hsize : (layout 0 ps).toArray.size = 0 + totalSize ps := by
    rw [List.size_toArray, length_layout hf, Nat.zero_add]
  constructor
  · rw [hlisting]
  · rw [hsize]
    apply h
    intro l hl
    rw [hlisting, List.mem_toArray]
    exact hl

theorem function {a n : Nat} {proto : Prototype} {statements : List Node}
    (hv : pool[a]? = some (.function proto))
    (hb : Placed pool proto.code [.region (.body statements)] 0 proto.code.size) :
    Forms pool [.op .closure [a, n]] [.function statements n] :=
  fun _ _ hs => .function (hs _ List.mem_cons_self) hv hb .nil

end Forms

end Piece

open Piece

/-- The code of a phrase, also without its last `pop`. -/
structure Phrase.Laid (pool : Array Value) (phrase : Phrase) (ps : List Piece) : Prop where
  whole : Forms pool ps [.phrase phrase]
  kept : phrase.isStatement → ∀ qs, ps = qs ++ [.op .pop] →
    Forms pool qs [.region (.kept phrase)]

namespace Phrase.Laid

variable {pool : Array Value} {ps : List Piece} {statements : List Node}

/-- Only of statements something can be left out. -/
theorem of_expr {phrase : Phrase} {parts : List Part} (h : Forms pool ps parts)
    (hc : Region.Consists pool (.phrase phrase) parts) (hp : phrase.isStatement = false) :
    phrase.Laid pool ps :=
  ⟨h.region hc, fun hs => by rw [hp] at hs; cases hs⟩

theorem asBranch (h : Phrase.Laid pool (.stmts statements) ps) :
    Forms pool (asBranch ps) [.region (.branch statements)] := by
  by_cases hp : EndsInPop ps
  · obtain ⟨qs, rfl⟩ := hp
    rw [asBranch_concat_pop]
    exact (h.kept rfl qs rfl).region .branchKept
  · rw [asBranch_of_not_endsInPop hp]
    exact (h.whole.append (.ins rfl)).region .branchNull

theorem asBody (h : Phrase.Laid pool (.stmts statements) ps) :
    Forms pool (asBody ps) [.region (.body statements)] := by
  by_cases hp : EndsInPop ps
  · obtain ⟨qs, rfl⟩ := hp
    rw [asBody_concat_pop]
    exact ((h.kept rfl qs rfl).append (.ins rfl)).region .bodyKept
  by_cases hr : EndsInReturn ps
  · obtain ⟨qs, rfl⟩ := hr
    rw [asBody_concat_returnValue]
    exact h.whole.region .bodyReturn
  · rw [asBody_of_not_ends hp hr]
    exact (h.whole.append (.ins rfl)).region .bodyNull

end Phrase.Laid

namespace Translates

variable {phrase : Phrase} {d d' : Draft} {ps : List Piece} {pool : Array Value}

theorem extends_pool (h : Translates phrase d ps d') : Extends d.constants d'.constants := by
  apply h.compose (P := fun d _ d' => Extends d.constants d'.constants)
  · exact fun d => .refl _
  · exact fun h h' => h.trans h'
  · exact fun d _ _ _ => .refl _
  · exact fun d _ _ => .push ..
  · exact fun _ => .refl _
  · exact fun d _ => .refl _
  · exact fun h h' => h.trans h'
  · exact fun _ _ h _ => h.trans (.push ..)

/-- Behind a function literal, its prototype is in the pool. -/
theorem getElem?_leave (d : Draft) {proto : Prototype}
    (hp : Extends (d.leave proto).constants pool) : pool[d.constants.size]? = some (.function proto) :=
  hp.getElem? Array.getElem?_push_size

/-- The code of a phrase is made as the phrase says. -/
theorem laid (h : Translates phrase d ps d') (hp : Extends d'.constants pool) :
    phrase.Laid pool ps := by
  induction h with
  | exprStmt _ ih =>
    refine ⟨((ih hp).whole.append (.ins rfl)).region .exprStmt, fun _ qs hq => ?_⟩
    obtain ⟨rfl, -⟩ := List.append_inj' hq rfl
    exact (ih hp).whole.region .keptExpr
  | @letStmt _ _ _ name _ d' _ hname _ ih =>
    obtain ⟨i, hi, hstore, hplain⟩ := (d'.env.define name).1.exists_store
    constructor
    · rw [hi]
      exact ((ih hp).whole.append (.ins hplain)).region (.letStmt hname hstore)
    · intro _ qs hq
      exact absurd (List.cons.inj (List.append_inj' hq rfl).2).1 (Symbol.store_ne_op _ rfl)
  | returnNull _ =>
    refine ⟨((Forms.ins rfl).append (.ins rfl)).region .returnNull, fun _ qs hq => ?_⟩
    have hlast : [Piece.op .pushNull] ++ [.op .returnValue] = qs ++ [.op .pop] := hq
    cases (List.append_inj' hlast rfl).2
  | returnValue _ _ ih =>
    refine ⟨((ih hp).whole.append (.ins rfl)).region .returnValue, fun _ qs hq => ?_⟩
    cases (List.append_inj' hq rfl).2
  | block _ ih =>
    exact ⟨(ih hp).whole.region .block, fun _ qs hq => ((ih hp).kept rfl qs hq).region .keptBlock⟩
  | noStmts =>
    refine ⟨Forms.nil.region .noStmts, fun _ qs hq => ?_⟩
    cases qs <;> cases hq
  | @stmts _ _ _ _ _ ps qs h₁ h₂ ih₁ ih₂ =>
    have hp₁ := h₂.extends_pool.trans hp
    refine ⟨((ih₁ hp₁).whole.append (ih₂ hp).whole).region .stmts, fun _ rs hq => ?_⟩
    rcases List.eq_nil_or_concat qs with rfl | ⟨qs, last, rfl⟩
    · rw [List.append_nil] at hq
      have hrest := (ih₂ hp).whole
      have hkept := ((ih₁ hp₁).kept rfl rs hq).append hrest
      rw [List.append_nil] at hkept
      exact hkept.region .keptHead
    · rw [List.concat_eq_append, ← List.append_assoc] at hq
      obtain ⟨rfl, hlast⟩ := List.append_inj' hq rfl
      cases hlast
      exact ((ih₁ hp₁).whole.append ((ih₂ hp).kept rfl qs List.concat_eq_append)).region .keptRest
  | intLit _ => exact .of_expr (.ins rfl) (.intLit (hp.getElem? Array.getElem?_push_size)) rfl
  | strLit => exact .of_expr (.ins rfl) (.strLit (hp.getElem? Array.getElem?_push_size)) rfl
  | @boolLit _ b _ => exact .of_expr (.ins (by cases b <;> rfl)) .boolLit rfl
  | @ident _ _ s _ _ _ _ =>
    obtain ⟨i, hi, hload⟩ := s.exists_load
    rw [hi]
    exact .of_expr (.ins (Opcode.isPlain_of_isLoad hload)) (.ident hload) rfl
  | unary hop _ ih =>
    have hplain := Opcode.isPlain_of_isInert
      (Opcode.isInert_of_isUnary (isUnary_of_unaryOpcode? hop))
    exact .of_expr ((ih hp).whole.append (.ins hplain)) (.unary hop) rfl
  | less _ h₂ ih₁ ih₂ =>
    have hboth := (ih₁ (h₂.extends_pool.trans hp)).whole.append (ih₂ hp).whole
    exact .of_expr (hboth.append (.ins rfl)) .less rfl
  | binary hne hop _ h₂ ih₁ ih₂ =>
    have hplain := Opcode.isPlain_of_isInert
      (Opcode.isInert_of_isBinary (isBinary_of_binaryOpcode? hop))
    have hboth := (ih₁ (h₂.extends_pool.trans hp)).whole.append (ih₂ hp).whole
    exact .of_expr (hboth.append (.ins hplain)) (.binary hne hop) rfl
  | ifExpr hfirst hsecond _ h₂ h₃ ihc iht ihe =>
    have hp₂ := h₃.extends_pool.trans hp
    have hchoice := (iht hp₂).asBranch.choice (ihe hp).asBranch
    have hcondition := (ihc (h₂.extends_pool.trans hp₂)).whole
    exact .of_expr (hcondition.append hchoice) (.ifExpr hfirst hsecond) rfl
  | @fnLit _ _ _ _ _ _ _ d' ps _ hbody _ hf _ ih =>
    have hlaid := ih ((Extends.push ..).trans hp)
    obtain ⟨loads, hloads, hall, hlen⟩ := Symbol.exists_loads d'.env.current.free
    have hfun := Forms.function (n := loads.length) (getElem?_leave d' hp)
      (hlaid.asBody.embodies hf).placed
    rw [hloads, ← hlen]
    exact .of_expr ((Forms.loads hall).append hfun) (.fnLit hbody hall) rfl
  | call _ h₂ ih₁ ih₂ =>
    have hboth := (ih₁ (h₂.extends_pool.trans hp)).whole.append (ih₂ hp).whole
    exact .of_expr (hboth.append (.ins rfl)) .call rfl
  | arrayLit _ ih => exact .of_expr ((ih hp).whole.append (.ins rfl)) .arrayLit rfl
  | hashLit _ ih => exact .of_expr ((ih hp).whole.append (.ins rfl)) .hashLit rfl
  | index _ h₂ ih₁ ih₂ =>
    have hboth := (ih₁ (h₂.extends_pool.trans hp)).whole.append (ih₂ hp).whole
    exact .of_expr (hboth.append (.ins rfl)) .index rfl
  | noExprs => exact .of_expr .nil .noExprs rfl
  | exprs _ h₂ ih₁ ih₂ =>
    exact .of_expr ((ih₁ (h₂.extends_pool.trans hp)).whole.append (ih₂ hp).whole) .exprs rfl
  | noPairs => exact .of_expr .nil .noPairs rfl
  | pairs _ h₂ h₃ ih₁ ih₂ ih₃ =>
    have hp₂ := h₃.extends_pool.trans hp
    have hboth := (ih₁ (h₂.extends_pool.trans hp₂)).whole.append (ih₂ hp₂).whole
    exact .of_expr (hboth.append (ih₃ hp).whole) .pairs rfl

end Translates

/-- Constants are only added, and the code of each function among those is that of a body. -/
structure Draft.AddsBodies (pool : Array Value) (d d' : Draft) : Prop where
  extends_pool : Extends d.constants d'.constants
  bodies : ∀ k proto, d.constants.size ≤ k → d'.constants[k]? = some (.function proto) →
    Extends d'.constants pool → ∃ statements, proto.code.Embodies pool (.body statements)

namespace Draft.AddsBodies

variable {pool : Array Value} {d d₁ d' : Draft}

theorem of_eq (h : d'.constants = d.constants) : d.AddsBodies pool d' := by
  constructor
  · rw [h]
    exact .refl _
  · intro k proto hk hv _
    rw [h, Array.getElem?_eq_none hk] at hv
    cases hv

theorem trans (h₁ : d.AddsBodies pool d₁) (h₂ : d₁.AddsBodies pool d') : d.AddsBodies pool d' := by
  refine ⟨h₁.extends_pool.trans h₂.extends_pool, fun k proto hk hv hp => ?_⟩
  by_cases hlt : k < d₁.constants.size
  · have hv₁ : d₁.constants[k]? = some d₁.constants[k] := Array.getElem?_eq_getElem hlt
    have heq := h₂.extends_pool.getElem? hv₁
    rw [hv] at heq
    rw [← heq] at hv₁
    exact h₁.bodies k proto hk hv₁ (h₂.extends_pool.trans hp)
  · exact h₂.bodies k proto (Nat.le_of_not_lt hlt) hv hp

theorem push {v : Value} {env : Environment}
    (hb : ∀ proto, v = .function proto → Extends (d.constants.push v) pool →
      ∃ statements, proto.code.Embodies pool (.body statements)) :
    d.AddsBodies pool { constants := d.constants.push v, env } := by
  refine ⟨.push .., fun k proto hk hv hp => ?_⟩
  have hlt := (Array.getElem?_eq_some_iff.mp hv).1
  rw [Array.size_push] at hlt
  obtain rfl : k = d.constants.size := by omega
  rw [Array.getElem?_push_size] at hv
  exact hb proto (Option.some.inj hv) hp

end Draft.AddsBodies

private theorem Translates.addsBodies {phrase : Phrase} {d d' : Draft} {ps : List Piece}
    (h : Translates phrase d ps d') (pool : Array Value) : d.AddsBodies pool d' := by
  apply h.compose (P := fun d _ d' => d.AddsBodies pool d')
  · exact fun d => .of_eq rfl
  · exact fun h h' => h.trans h'
  · exact fun d _ _ _ => .of_eq rfl
  · intro d v hv
    refine .push fun proto hf _ => ?_
    rw [hf] at hv
    exact absurd hv id
  · exact fun _ => .of_eq rfl
  · exact fun d _ => .of_eq rfl
  · exact fun h h' => h.trans h'
  · intro params names statements name d ps d' _ ht hadds hf
    have henter : d.AddsBodies pool (d.enter name names) := .of_eq rfl
    refine henter.trans (hadds.trans (.push fun proto hproto hp => ?_))
    cases hproto
    exact ⟨statements, (ht.laid ((Extends.push ..).trans hp)).asBody.embodies hf⟩

/-- Code with heights of the stack that pass verification, in which every part of a program adds
what it should, and both branches of a choice reach its end with one value more on the stack than
there is before its condition. -/
def Code.Balanced (pool : Array Value) (code : Code) : Prop :=
  ∃ height, code.Verified height ∧
    (∀ r lo hi, Placed pool code [.region r] lo hi → height hi = height lo + r.adds) ∧
    ∀ line condition consequence alternative lo hi,
      Placed pool code [.phrase (.expr (.ifExpr line condition consequence alternative))] lo hi →
        ∃ a b, code.Shows a ⟨.jumpNotTruthy, [b + 3]⟩ ∧ code.Shows b ⟨.jump, [hi]⟩ ∧
          height (a + 3) = height lo ∧ height b = height lo + 1 ∧
          height (b + 3) = height lo ∧ height hi = height lo + 1

namespace Placed

variable {pool : Array Value} {code : Code} {r : Region} {lo hi : Nat} {height : Nat → Nat}

theorem height_region (h : Placed pool code [.region r] lo hi)
    (hv : ∀ l ∈ code.listing.items, l.Agrees height) : height hi = height lo + r.adds :=
  h.height_eq (fun l hl _ _ => hv l hl) ⟨Nat.zero_le _, rfl⟩

private theorem height_choice {line : Line} {condition : Node}
    {consequence alternative : Option Node}
    (h : Placed pool code [.phrase (.expr (.ifExpr line condition consequence alternative))] lo hi)
    (hv : ∀ l ∈ code.listing.items, l.Agrees height) :
    ∃ a b, code.Shows a ⟨.jumpNotTruthy, [b + 3]⟩ ∧ code.Shows b ⟨.jump, [hi]⟩ ∧
      height (a + 3) = height lo ∧ height b = height lo + 1 ∧
      height (b + 3) = height lo ∧ height hi = height lo + 1 := by
  cases h with
  | region hc hparts hnil =>
    cases hc with
    | ifExpr hfirst hsecond =>
      cases hnil
      cases hparts with
      | @region _ _ _ _ _ a _ hc hcondition hchoice =>
        have hcond : height a = height lo + 1 :=
          Placed.height_region (.region hc hcondition .nil) hv
        cases hchoice with
        | @choice _ _ _ _ _ b _ _ hj hone hj' htwo hnil =>
          cases hnil
          have hnext : height (a + 3) = height a - 1 := (hv _ hj).onward fun hop => by cases hop
          have hother : height (b + 3) = height a - 1 := (hv _ hj).jumps (b + 3) rfl
          have hfirst : height b = height (a + 3) + 1 := hone.height_region hv
          have hsecond : height hi = height (b + 3) + 1 := htwo.height_region hv
          exact ⟨a, b, hj, hj', by omega, by omega, by omega, by omega⟩

end Placed

/-- Code of a region that adds nothing to the stack is balanced. -/
theorem Code.Embodies.balanced {pool : Array Value} {code : Code} {r : Region}
    (h : code.Embodies pool r) (hadds : r.adds = 0) : code.Balanced pool := by
  have hlead : Part.Lead 0 [.region r] (0 + r.adds) := ⟨Nat.le_refl _, rfl⟩
  obtain ⟨height, hstart, hsteady⟩ := h.placed.exists_height h.reads hlead
  have hagrees : ∀ l ∈ code.listing.items, l.Agrees height := fun l hl =>
    hsteady l hl (Nat.zero_le _) (offset_lt_size h.reads hl)
  have hfinish : height code.size = 0 := by
    rw [h.placed.height_region hagrees, hstart, hadds]
  exact ⟨height, ⟨h.reads, hstart, hagrees, hfinish⟩, fun r lo hi hp => hp.height_region hagrees,
    fun _ _ _ _ lo hi hp => hp.height_choice hagrees⟩

/-- Whatever code is compiled successfully passes verification: that of the program, which is laid
out as its tree says, and that of every function in it, which is that of its body. -/
theorem Session.compile_balanced {s s₁ : Session} {program : Node} {code : Code}
    (hc : s.compile program = (.ok code, s₁)) :
    (∃ line statements, program = .program line statements ∧
      code.Embodies s₁.constants (.phrase (.stmts statements))) ∧
    code.Balanced s₁.constants ∧
    ∀ k proto, s.constants.size ≤ k → s₁.constants[k]? = some (.function proto) →
      (∃ statements, proto.code.Embodies s₁.constants (.body statements)) ∧
      proto.code.Balanced s₁.constants := by
  obtain ⟨line, statements, ps, d, rfl, ht, hf, rfl, rfl⟩ := compile_eq_ok.mp hc
  have hprogram := (ht.laid (.refl _)).whole.embodies hf
  refine ⟨⟨line, statements, rfl, hprogram⟩, hprogram.balanced rfl, fun k proto hk hv => ?_⟩
  obtain ⟨body, hbody⟩ := (ht.addsBodies d.constants).bodies k proto hk hv (.refl _)
  exact ⟨⟨body, hbody⟩, hbody.balanced rfl⟩

/-- A function with a choice as its value: an empty block comes behind the last expression of one
branch, and the other branch ends in a binding. -/
theorem Session.compile_balanced_choice :
    ∃ (program : Node) (s₁ : Session) (proto : Prototype),
      Session.compile {} program =
        (.ok #[29, 0, 2, 0, 17, 0, 0, 16, 0, 0, 6, 26, 1, 5], s₁) ∧
      Code.Balanced s₁.constants #[29, 0, 2, 0, 17, 0, 0, 16, 0, 0, 6, 26, 1, 5] ∧
      s₁.constants[2]? = some (.function proto) ∧ proto.code.Balanced s₁.constants := by
  let program : Node := .program none [
    .letStmt none (.ident none "f") (.fnLit none [.ident none "x"] (.block none [
      .exprStmt none (.ifExpr none (.ident none "x")
        (some (.block none [.exprStmt none (.intLit none (.int 1)), .block none []]))
        (some (.block none [.letStmt none (.ident none "y") (.intLit none (.int 2))])))]) none),
    .exprStmt none (.call none (.ident none "f") [.boolLit none true])]
  have hcode : (Session.compile {} program).1.toOption =
      some #[29, 0, 2, 0, 17, 0, 0, 16, 0, 0, 6, 26, 1, 5] := by decide +kernel
  have hkind : ((Session.compile {} program).2.constants[2]?).map Value.kind = some .function := by
    decide +kernel
  clear_value program
  have hc := compile_of_toOption hcode
  obtain ⟨v, hv, hfun⟩ := Option.map_eq_some_iff.mp hkind
  obtain ⟨-, hprogram, hfunctions⟩ := compile_balanced hc
  cases v with
  | function proto =>
    exact ⟨program, _, proto, hc, hprogram, hv, (hfunctions 2 proto (Nat.zero_le _) hv).2⟩
  | _ => cases hfun

end ClosureVM
