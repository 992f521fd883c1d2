import ClosureVM.Proofs.Compiler.Abandoned
import Mathlib.Order.Interval.Finset.Nat

/-! All code that a compiler has produced is well-formed, whatever programs it was given. Only if a
compilation breaks off, functions may stay in the pool of which nothing makes closures. -/
namespace ClosureVM.Compiler

/-- The code that a compiler has produced so far: programs are given to it one after the other,
and it accepts them, rejects them or breaks off. `stray` are the constants that were added by
compilations which broke off. -/
inductive Produced : Compiler → List Code → Finset Nat → Prop
  | new : Produced {} [] ∅
  | accepted {c c' : Compiler} {codes : List Code} {stray : Finset Nat} {program : Node}
    {code : Code} :
    Produced c codes stray → compileProgram program c = .ok code c' →
      Produced c' (codes ++ [code]) stray
  | rejected {c c' : Compiler} {codes : List Code} {stray : Finset Nat} {program : Node}
    {e : CompileError} :
    Produced c codes stray → compileProgram program c = .error (.error e) c' →
      Produced c' codes stray
  | brokenOff {c c' : Compiler} {codes : List Code} {stray : Finset Nat} {program : Node}
    {what : Missing} :
    Produced c codes stray → compileProgram program c = .error (.missing what) c' →
      Produced c' codes (stray ∪ Finset.Ico c.constants.size c'.constants.size)

/-- At how many places the code of a compiler makes closures of the function with constant `k`. -/
def sites (c : Compiler) (codes : List Code) (k : Nat) : Nat :=
  (codes.map (·.sites k)).sum + sitesIn c.constants k

/-- What holds of a compiler and of the code it has produced. -/
structure Formed (c : Compiler) (codes : List Code) (stray : Finset Nat) : Prop where
  shared : c.env.global.Shared
  numbered : c.env.global.Numbered
  programs : ∀ code ∈ codes,
    ∃ ps, code.Derives c.constants c.env.global.numDefinitions ⟨0, 0, false⟩ ps
  functions : ∀ (k : Nat) (proto : Prototype), c.constants[k]? = some (.function proto) →
    ∃ n, proto.Derived c.constants c.env.global.numDefinitions n
  sites_le (k : Nat) : c.sites codes k ≤ functionsAt c.constants k
  sites_eq : ∀ k ∉ stray, c.sites codes k = functionsAt c.constants k
  descends : Descends c.constants

variable {c c' : Compiler} {codes : List Code} {stray : Finset Nat} {program : Node}

/-- A program that is rejected leaves constants and names as they were. -/
theorem compileProgram_error {e : CompileError}
    (h : compileProgram program c = .error (.error e) c') :
    c'.constants = c.constants ∧ c'.env.global = c.env.global := by
  cases program with
  | program line statements =>
    simp only [compileProgram] at h
    have hk := (Keeps.compositional.stmts statements).continues c.restart
    cases hc : compileStmts statements c.restart with
    | ok u c'' =>
      rw [hc] at h
      cases h
    | error stop c'' =>
      rw [hc] at h hk
      cases stop with
      | error e =>
        cases h
        exact ⟨hk.constants.take_eq, rfl⟩
      | missing what => cases h
  | _ =>
    cases h
    exact ⟨rfl, rfl⟩

private theorem compileProgram_missing {what : Missing}
    (h : compileProgram program c = .error (.missing what) c') :
    ∃ line statements, program = .program line statements ∧
      compileStmts statements c.restart = .error (.missing what) c' := by
  cases program with
  | program line statements =>
    refine ⟨line, statements, rfl, ?_⟩
    simp only [compileProgram] at h
    cases hc : compileStmts statements c.restart with
    | ok u c'' =>
      rw [hc] at h
      cases h
    | error stop c'' =>
      rw [hc] at h
      cases stop with
      | error e => cases h
      | missing what' =>
        cases h
        rfl
  | _ => cases h

theorem Formed.underway (h : c.Formed codes stray) : c.restart.Underway :=
  ⟨rfl, ⟨⟨h.shared, trivial⟩, trivial⟩, h.numbered⟩

/-- What a compilation adds to the constants is in order, also if it breaks off. -/
theorem Formed.functions_of_adds (h : c.Formed codes stray)
    (ha : c.restart.draft.Adds c'.draft) {k : Nat} {proto : Prototype}
    (hk : c'.constants[k]? = some (.function proto)) :
    ∃ n, proto.Derived c'.constants c'.env.global.numDefinitions n := by
  by_cases hlt : k < c.constants.size
  · have hk' : c.constants[k]? = some (.function proto) :=
      (ha.pool.getElem?_of_lt hlt).symm.trans hk
    obtain ⟨n, hn⟩ := h.functions k proto hk'
    exact ⟨n, hn.mono ha.pool ha.defines⟩
  · exact ha.derived k proto (Nat.le_of_not_lt hlt) hk

private theorem Formed.accept {code : Code} (h : c.Formed codes stray)
    (hc : compileProgram program c = .ok code c') : c'.Formed (codes ++ [code]) stray := by
  obtain ⟨-, statements, ps, -, hstmts, ht, hf, hcode⟩ := compileProgram_ok hc
  obtain ⟨hunderway, ha⟩ := (Adds.compositional.stmts statements).ok h.underway hstmts
  have hleads := ht.leads h.underway.orderly.closed hf
  have horders := ht.orders h.underway.orderly h.numbered
  have hcloses := ht.closes
  have hshape : c'.env.shape = ⟨0, 0, false⟩ := by
    have hnil : c'.env.nested = [] := List.forall₂_nil_left_iff.mp hleads.grows
    rw [Environment.shape, hnil]
  have hnew : code.Derives c'.constants c'.env.global.numDefinitions ⟨0, 0, false⟩ ps :=
    ⟨hf, hcode, ht.endsPlain rfl, ⟨_, hshape ▸ hleads.checked 0⟩, _, _, horders.ordered,
      Nat.le_refl _⟩
  have hsites (k : Nat) : c'.sites (codes ++ [code]) k + functionsAt c.constants k =
      c.sites codes k + functionsAt c'.constants k := by
    have hs : Piece.sites 0 ps k + sitesIn c'.constants k + functionsAt c.constants k =
      sitesIn c.constants k + functionsAt c'.constants k := hcloses.sites 0 k
    have hlayout : code.sites k = Piece.sites 0 ps k := hcode ▸ Code.sites_layout hf k
    rw [sites, sites, List.map_append, List.sum_append_nat, List.map_singleton,
      List.sum_singleton, hlayout]
    omega
  refine ⟨hunderway.orderly.closed.global, hunderway.numbered, fun code' hmem => ?_,
    fun k proto => h.functions_of_adds ha, fun k => ?_, fun k hk => ?_, ha.descends h.descends⟩
  · obtain hmem | hmem := List.mem_append.mp hmem
    · obtain ⟨qs, hqs⟩ := h.programs code' hmem
      exact ⟨qs, hqs.mono ha.pool ha.defines⟩
    · obtain rfl := List.mem_singleton.mp hmem
      exact ⟨ps, hnew⟩
  · have := hsites k
    have := h.sites_le k
    omega
  · have := hsites k
    have := h.sites_eq k hk
    omega

/-- What was there before a compilation that breaks off is named as before. -/
theorem Formed.breakOff {what : Missing} (h : c.Formed codes stray)
    (hc : compileProgram program c = .error (.missing what) c') :
    c'.Formed codes (stray ∪ Finset.Ico c.constants.size c'.constants.size) := by
  obtain ⟨-, statements, -, hstmts⟩ := compileProgram_missing hc
  have ha := (Adds.compositional.stmts statements).missing h.underway hstmts
  have hk := (Keeps.compositional.stmts statements).continues c.restart
  rw [hstmts] at hk
  have hpool : Extends c.constants c'.constants := ha.pool
  have hle (k : Nat) : c'.sites codes k ≤ functionsAt c'.constants k := by
    have hs : sitesIn c'.constants k + functionsAt c.constants k ≤
      sitesIn c.constants k + functionsAt c'.constants k := ha.sites k
    have ho := h.sites_le k
    unfold sites at ho ⊢
    omega
  refine ⟨hk.global h.shared, hk.numbered h.numbered, fun code hmem => ?_,
    fun k proto => h.functions_of_adds ha, hle, fun k hk => ?_, ha.descends h.descends⟩
  · obtain ⟨ps, hps⟩ := h.programs code hmem
    exact ⟨ps, hps.mono ha.pool ha.defines⟩
  · simp only [Finset.mem_union, Finset.mem_Ico, not_or, not_and, Nat.not_lt] at hk
    by_cases hlt : k < c.constants.size
    · -- an older constant is the function that it was, and no less is made of it
      have hsame : functionsAt c'.constants k = functionsAt c.constants k := by
        rw [functionsAt, functionsAt, hpool.getElem?_of_lt hlt]
      have hold := h.sites_eq k hk.1
      have hmore := hpool.sitesIn_le k
      have hless := hle k
      unfold sites at hold hless ⊢
      omega
    · have hnone := functionsAt_eq_zero (hk.2 (Nat.le_of_not_lt hlt))
      have hless := hle k
      omega

theorem Produced.formed (h : Produced c codes stray) : c.Formed codes stray := by
  induction h with
  | new =>
    refine ⟨Table.shared_builtins, Table.numbered_builtins, List.forall_mem_nil _,
      fun k proto hk => ?_, fun k => ?_, fun k _ => ?_, fun j proto hj => ?_⟩
    · cases hk
    · exact Nat.le_refl 0
    · rfl
    · cases hj
  | accepted _ hc ih => exact ih.accept hc
  | @rejected c c' _ _ _ _ _ hc ih =>
    obtain ⟨hconst, hglobal⟩ := compileProgram_error hc
    have hsites (codes : List Code) (k : Nat) : c'.sites codes k = c.sites codes k := by
      rw [sites, sites, hconst]
    refine ⟨hglobal ▸ ih.shared, hglobal ▸ ih.numbered, ?_, ?_, ?_, ?_, hconst ▸ ih.descends⟩
    · rw [hconst, hglobal]
      exact ih.programs
    · rw [hconst, hglobal]
      exact ih.functions
    · simp only [hsites, hconst]
      exact ih.sites_le
    · simp only [hsites, hconst]
      exact ih.sites_eq
  | brokenOff _ hc ih => exact ih.breakOff hc

/-- Code of a program, or of a function whose constant comes after `k`. -/
def CodeAfter (c : Compiler) (codes : List Code) (k : Nat) (code : Code) : Prop :=
  code ∈ codes ∨
    ∃ j proto, k < j ∧ c.constants[j]? = some (.function proto) ∧ code = proto.code

/-- Code of a program or of a function. -/
def HasCode (c : Compiler) (codes : List Code) (code : Code) : Prop :=
  code ∈ codes ∨ ∃ (j : Nat) (proto : Prototype),
    c.constants[j]? = some (.function proto) ∧ code = proto.code

/-- Where a closure of a function is made, its code is checked for the number of values that the
closure holds; and that is in a program or in a function further on. -/
theorem Formed.closure (h : c.Formed codes stray) {k : Nat} {code : Code} {l : Located}
    (hcode : c.HasCode codes code) (hl : l ∈ code.listing.items)
    (hk : l.instruction.closes? = some k) :
    c.CodeAfter codes k code ∧ ∃ n proto, l.instruction = ⟨.closure, [k, n]⟩ ∧
      c.constants[k]? = some (.function proto) ∧
      proto.Derived c.constants c.env.global.numDefinitions n := by
  obtain hmem | ⟨j, proto, hj, rfl⟩ := hcode
  · obtain ⟨ps, hps⟩ := h.programs code hmem
    exact ⟨.inl hmem, hps.function hl hk⟩
  · obtain ⟨n, -, -, body, -, hbody⟩ := h.functions j proto hj
    refine ⟨.inr ⟨j, proto, Nat.lt_of_not_le fun hle => ?_, hj, rfl⟩, hbody.function hl hk⟩
    have hpos : 0 < proto.code.sites k :=
      List.countP_pos_iff.mpr ⟨l, Array.mem_toList_iff.mpr hl, decide_eq_true hk⟩
    exact Nat.ne_of_gt hpos (h.descends j proto hj k hle)

/-- All code that a compiler has produced is well-formed: that of every program, and that of every
function in the pool. Closures of a function are made at one place at most, which lies in a program
or in a function further on, and with as many values as its code reads. There is such a place,
unless the function was added by a compilation that broke off. -/
theorem Produced.code_wellFormed (h : Produced c codes stray) :
    (∀ code ∈ codes, code.IsProgram c.constants c.env.global.numDefinitions) ∧
    ∀ k proto, c.constants[k]? = some (.function proto) →
      (∃ n, proto.IsFunction c.constants c.env.global.numDefinitions n) ∧
      c.sites codes k ≤ 1 ∧ (k ∉ stray → c.sites codes k = 1) ∧
      ∀ code, c.HasCode codes code → ∀ l ∈ code.listing.items,
        l.instruction.closes? = some k → c.CodeAfter codes k code ∧
          ∃ n, l.instruction = ⟨.closure, [k, n]⟩ ∧
            proto.IsFunction c.constants c.env.global.numDefinitions n := by
  have hf := h.formed
  refine ⟨fun code hcode => ?_, fun k proto hk => ?_⟩
  · obtain ⟨ps, hps⟩ := hf.programs code hcode
    exact hps.isProgram
  · have hone : functionsAt c.constants k = 1 := by rw [functionsAt, hk]
    refine ⟨?_, hone ▸ hf.sites_le k, fun hs => hone ▸ hf.sites_eq k hs,
      fun code hcode l hl hl' => ?_⟩
    · obtain ⟨n, hn⟩ := hf.functions k proto hk
      exact ⟨n, hn.isFunction⟩
    · obtain ⟨hafter, n, proto', hi, hk', hn⟩ := hf.closure hcode hl hl'
      cases hk.symm.trans hk'
      exact ⟨hafter, n, hi, hn.isFunction⟩

/-! ### Producing code -/

/-- Gives one more program to a compiler. -/
def produceNext (s : Compiler × List Code × Finset Nat) (program : Node) :
    Compiler × List Code × Finset Nat :=
  match compileProgram program s.1 with
  | .ok code c => (c, s.2.1 ++ [code], s.2.2)
  | .error (.error _) c => (c, s.2.1, s.2.2)
  | .error (.missing _) c =>
    (c, s.2.1, s.2.2 ∪ Finset.Ico s.1.constants.size c.constants.size)

/-- What a new compiler produces when it is given these programs. -/
def produce (programs : List Node) : Compiler × List Code × Finset Nat :=
  programs.foldl produceNext ({}, [], ∅)

theorem Produced.next {s : Compiler × List Code × Finset Nat} (h : Produced s.1 s.2.1 s.2.2)
    (program : Node) :
    Produced (produceNext s program).1 (produceNext s program).2.1
      (produceNext s program).2.2 := by
  unfold produceNext
  cases hc : compileProgram program s.1 with
  | ok code c => exact h.accepted hc
  | error stop c =>
    cases stop with
    | error e => exact h.rejected hc
    | missing what => exact h.brokenOff hc

theorem produced_produce (programs : List Node) :
    Produced (produce programs).1 (produce programs).2.1 (produce programs).2.2 :=
  List.foldlRecOn programs produceNext
    (motive := fun s : Compiler × List Code × Finset Nat => Produced s.1 s.2.1 s.2.2) .new
    fun _ h program _ => h.next program

theorem exists_function {pool : Array Value} {k : Nat} (h : functionsAt pool k = 1) :
    ∃ proto, pool[k]? = some (.function proto) := by
  unfold functionsAt at h
  split at h
  · rename_i proto hk
    exact ⟨proto, hk⟩
  · cases h

/-- The program `x`, where no `x` is defined. -/
def undefinedName : Node := .program none [.exprStmt none (.ident none "x")]

/-- The program `fn(a) \x7b fn() \x7b a \x7d \x7d`. -/
def nestedFunctions : Node :=
  .program none [.exprStmt none (.fnLit none [.ident none "a"] (.block none [
    .exprStmt none (.fnLit none [] (.block none [.exprStmt none (.ident none "a")]) none)]) none)]

/-- A function and behind it a literal of 5001 digits, at which a compilation breaks off. -/
def longLiteral : Node :=
  .program none [.exprStmt none (.fnLit none [] (.block none []) none),
    .exprStmt none (.intLit none (.int (Nat.pow 10 5000 : Nat)))]

/-- A program with a function inside another is accepted between one that is rejected and one at
which the compilation breaks off. The function of the last one is as well-formed as the others. -/
theorem Produced.code_wellFormed_stray :
    ∃ c codes, Produced c codes {2} ∧ codes.length = 1 ∧
      (∀ code ∈ codes, code.IsProgram c.constants c.env.global.numDefinitions) ∧
      c.sites codes 0 = 1 ∧ c.sites codes 1 = 1 ∧ c.sites codes 2 ≤ 1 ∧
      ∀ k < 3, ∃ proto n, c.constants[k]? = some (.function proto) ∧
        proto.IsFunction c.constants c.env.global.numDefinitions n := by
  have h := produced_produce [undefinedName, nestedFunctions, longLiteral]
  have hstray : (produce [undefinedName, nestedFunctions, longLiteral]).2.2 = {2} := by
    decide +kernel
  have hcodes : (produce [undefinedName, nestedFunctions, longLiteral]).2.1.length = 1 := by
    decide +kernel
  have hfunctions : ∀ k < 3, functionsAt
      (produce [undefinedName, nestedFunctions, longLiteral]).1.constants k = 1 := by
    decide +kernel
  generalize produce [undefinedName, nestedFunctions, longLiteral] = s at h hstray hcodes hfunctions
  obtain ⟨c, codes, stray⟩ := s
  obtain rfl : stray = {2} := hstray
  replace h : Produced c codes {2} := h
  obtain ⟨hprogram, hfunction⟩ := h.code_wellFormed
  have hat (k : Nat) (hk : k < 3) := exists_function (hfunctions k hk)
  obtain ⟨proto₀, h₀⟩ := hat 0 (by decide)
  obtain ⟨proto₁, h₁⟩ := hat 1 (by decide)
  obtain ⟨proto₂, h₂⟩ := hat 2 (by decide)
  refine ⟨c, codes, h, hcodes, hprogram, (hfunction 0 proto₀ h₀).2.2.1 (by decide),
    (hfunction 1 proto₁ h₁).2.2.1 (by decide), (hfunction 2 proto₂ h₂).2.1, fun k hk => ?_⟩
  obtain ⟨proto, hproto⟩ := hat k hk
  obtain ⟨⟨n, hn⟩, -⟩ := hfunction k proto hproto
  exact ⟨proto, n, hproto, hn⟩

/-- So not every function in the pool has its closures made somewhere: of the one that was finished
when the compilation broke off, no code makes any. -/
theorem Produced.stray_function_unnamed :
    (Session.compile {} longLiteral).1 = .error (.missing .numeral) ∧
      ∃ c proto, Produced c [] {0} ∧ c.constants[0]? = some (.function proto) ∧
        c.sites [] 0 = 0 := by
  refine ⟨by decide +kernel, ?_⟩
  have h := produced_produce [longLiteral]
  have hcodes : (produce [longLiteral]).2.1 = [] := by decide +kernel
  have hstray : (produce [longLiteral]).2.2 = {0} := by decide +kernel
  obtain ⟨proto, hproto⟩ : ∃ proto, (produce [longLiteral]).1.constants[0]? =
    some (.function proto) := exists_function (by decide +kernel)
  rw [hcodes, hstray] at h
  exact ⟨_, proto, h, hproto, by decide +kernel⟩

end ClosureVM.Compiler
