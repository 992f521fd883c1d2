import ClosureVM.Proofs.Symbol.Forest

/-! The scopes around a place of a program, as a list of tables, behave as numbered tables do: they
give the same symbols for the same names, whatever is entered, left, defined and resolved. -/
namespace ClosureVM

/-- What is done to the scopes of a program, one after the other. -/
inductive ScopeAction
  | enter
  | leave
  | define (name : String)
  | defineFunctionName (name : String)
  | resolve (name : String)

/-- The symbol that an action gives, and the scopes after it. -/
def Environment.perform (env : Environment) : ScopeAction → Option Symbol × Environment
  | .enter => (none, env.enter)
  | .leave => (none, env.leave)
  | .define name => (some (env.define name).1, (env.define name).2)
  | .defineFunctionName name => (none, env.defineFunctionName name)
  | .resolve name => ((env.resolve? name).map Prod.fst, ((env.resolve? name).map Prod.snd).getD env)

/-- The same among numbered tables, where the innermost one has the number `i`. -/
def Forest.perform (f : Forest) (i : Nat) : ScopeAction → Option Symbol × Forest × Nat
  | .enter => (none, (f.add (some i) {}).2, (f.add (some i) {}).1)
  | .leave => (none, f, (f.entry i).outer.getD i)
  | .define name => (some (f.define i name).1, (f.define i name).2, i)
  | .defineFunctionName name => (none, (f.defineFunctionName i name).2, i)
  | .resolve name =>
    ((f.resolve? i name).map Prod.fst, ((f.resolve? i name).map Prod.snd).getD f, i)

/-- What can be seen of actions one after the other: the symbols they give, and the innermost table
after each of them. -/
def Environment.answers (env : Environment) : List ScopeAction → List (Option Symbol × Table)
  | [] => []
  | action :: rest =>
    ((env.perform action).1, (env.perform action).2.current) ::
      (env.perform action).2.answers rest

def Forest.answers (f : Forest) (i : Nat) : List ScopeAction → List (Option Symbol × Table)
  | [] => []
  | action :: rest =>
    let (s, f, i) := f.perform i action
    (s, f.table i) :: f.answers i rest

/-- Resolving a name in the scopes is resolving it along the list of all tables. -/
theorem resolveAlong_append (global : Table) (name : String) (nested : List Table) :
    resolveAlong name (nested ++ [global]) = (Environment.resolveIn global name nested).map
      fun found => (found.1, found.2 ++ [global]) := by
  induction nested with
  | nil =>
    rw [List.nil_append, resolveAlong, Environment.resolveIn]
    cases global.find? name <;> rfl
  | cons t outer ih =>
    rw [List.cons_append, resolveAlong, Environment.resolveIn, ih]
    cases t.find? name with
    | some s => rfl
    | none =>
      cases Environment.resolveIn global name outer with
      | none => rfl
      | some found =>
        dsimp only [Option.map_some]
        split <;> rfl

namespace Forest

variable {f : Forest} {i j : Nat} {env : Environment}

namespace Separate

variable (h : f.Separate)
include h

theorem tables_eq (i : Nat) :
    f.tables i = f.table i :: ((f.entry i).outer.map f.tables).getD [] := by
  rw [tables, h.chain_eq, List.map_cons]
  cases (f.entry i).outer <;> rfl

private theorem tables_setTable (hi : i < f.entries.size) (t : Table) :
    (f.setTable i t).tables i = t :: (f.tables i).tail := by
  have hp := (h.chain_pairwise i).1
  have hlt := h.mem_chain_lt hi
  rw [tables, (sameShape_setTable f i t).chain, tables]
  rw [h.chain_eq] at hp hlt ⊢
  rw [List.map_cons, List.map_cons, List.tail_cons, h.table_setTable hi hi, if_pos rfl]
  congr 1
  refine List.map_congr_left fun j hj => ?_
  rw [h.table_setTable hi (hlt j (List.mem_cons_of_mem i hj)),
    if_neg (Nat.ne_of_lt (List.rel_of_pairwise_cons hp hj))]

/-- A new table leaves those that were there as they were. -/
theorem tables_add {outer : Option Nat} (ho : ∀ j ∈ outer, j < f.entries.size) (t : Table)
    (hi : i < f.entries.size) : (f.add outer t).2.tables i = f.tables i := by
  induction i using Nat.strongRecOn with
  | ind i ih =>
    have htable : (f.add outer t).2.table i = f.table i :=
      (h.table_add outer t (Nat.lt_succ_of_lt hi)).trans (if_neg (Nat.ne_of_lt hi))
    rw [(h.add ho t).tables_eq, h.tables_eq, htable, entry_add, if_neg (Nat.ne_of_lt hi)]
    cases hj : (f.entry i).outer with
    | none => rfl
    | some j =>
      have hlt := h.older i j hj
      exact congrArg (f.table i :: ·) (ih j hlt (Nat.lt_trans hlt hi))

theorem tables_add_new (hi : i < f.entries.size) (t : Table) :
    (f.add (some i) t).2.tables f.entries.size = t :: f.tables i := by
  have ho : ∀ j ∈ some i, j < f.entries.size := by
    rintro j ⟨⟩
    exact hi
  rw [(h.add ho t).tables_eq, h.table_add _ t (Nat.lt_succ_self _), if_pos rfl, entry_add,
    if_pos rfl]
  exact congrArg (t :: ·) (h.tables_add ho t hi)

end Separate

/-- Table `i` and those around it hold what the scopes hold. -/
structure Mirrors (f : Forest) (i : Nat) (env : Environment) : Prop where
  separate : f.Separate
  inside : i < f.entries.size
  tables : f.tables i = env.nested ++ [env.global]

namespace Mirrors

theorem new : Mirrors (add {} none .builtins).2 0 {} := by
  have hf := (Built.empty.add none (fun j hj => by cases hj) .builtins).separate
  refine ⟨hf, Nat.one_pos, ?_⟩
  rw [hf.tables_eq]
  rfl

theorem table_eq (h : f.Mirrors i env) : f.table i = env.current := by
  have hhead := h.separate.head?_tables i
  rw [h.tables, List.head?_append] at hhead
  rw [Environment.current]
  cases hn : env.nested.head? with
  | none =>
    rw [hn] at hhead
    exact (Option.some.inj hhead).symm
  | some t =>
    rw [hn] at hhead
    exact (Option.some.inj hhead).symm

/-- The table of the program is the one with no table around it. -/
theorem outer_isNone (h : f.Mirrors i env) : (f.entry i).outer.isNone = env.nested.isEmpty := by
  have htables := h.tables
  rw [h.separate.tables_eq] at htables
  cases ho : (f.entry i).outer with
  | none =>
    rw [ho] at htables
    cases hn : env.nested with
    | nil => rfl
    | cons t outer =>
      rw [hn] at htables
      have hlen := congrArg List.length htables
      simp at hlen
  | some j =>
    rw [ho] at htables
    cases hn : env.nested with
    | nil =>
      rw [hn] at htables
      have hlen := congrArg List.length htables
      have hj : (f.tables j).length = _ := congrArg List.length (h.separate.tables_eq j)
      simp [hj] at hlen
    | cons t outer => rfl

theorem enter (h : f.Mirrors i env) :
    (f.add (some i) {}).2.Mirrors (f.add (some i) {}).1 env.enter where
  separate := h.separate.add (by rintro j ⟨⟩; exact h.inside) {}
  inside := by
    rw [show (f.add (some i) {}).2.entries.size = f.entries.size + 1 from Array.size_push _]
    exact Nat.lt_succ_self _
  tables := by
    refine (h.separate.tables_add_new h.inside {}).trans ?_
    rw [h.tables]
    rfl

theorem leave (h : f.Mirrors i env) : f.Mirrors ((f.entry i).outer.getD i) env.leave := by
  have hout := h.outer_isNone
  cases ho : (f.entry i).outer with
  | none =>
    rw [ho] at hout
    have hnil : env.nested = [] := List.isEmpty_iff.mp hout.symm
    refine ⟨h.separate, h.inside, h.tables.trans ?_⟩
    rw [Environment.leave, hnil]
    rfl
  | some j =>
    have htables := h.tables
    rw [h.separate.tables_eq, ho] at htables
    refine ⟨h.separate, Nat.lt_trans (h.separate.older i j ho) h.inside, ?_⟩
    cases hn : env.nested with
    | nil =>
      rw [ho, hn] at hout
      cases hout
    | cons t outer =>
      rw [hn] at htables
      rw [Environment.leave, hn]
      exact List.tail_eq_of_cons_eq htables

/-- The innermost table is replaced on both sides. -/
theorem setTable (h : f.Mirrors i env) {env' : Environment} {t : Table}
    (ht : env'.nested ++ [env'.global] = t :: (env.nested ++ [env.global]).tail) :
    (f.setTable i t).Mirrors i env' where
  separate := h.separate.setTable i t
  inside := by
    rw [(sameShape_setTable f i t).entries]
    exact h.inside
  tables := by rw [h.separate.tables_setTable h.inside, h.tables, ht]

theorem define (h : f.Mirrors i env) (name : String) :
    (f.define i name).1 = (env.define name).1 ∧
      (f.define i name).2.Mirrors i (env.define name).2 := by
  rw [Forest.define, h.outer_isNone, h.table_eq, Environment.define, Environment.current]
  cases hn : env.nested with
  | nil => exact ⟨rfl, h.setTable (by rw [hn]; rfl)⟩
  | cons t outer => exact ⟨rfl, h.setTable (by rw [hn]; rfl)⟩

theorem defineFunctionName (h : f.Mirrors i env) (name : String) :
    (f.defineFunctionName i name).2.Mirrors i (env.defineFunctionName name) := by
  rw [Forest.defineFunctionName, h.table_eq, Environment.defineFunctionName, Environment.current]
  cases hn : env.nested with
  | nil => exact h.setTable (by rw [hn]; rfl)
  | cons t outer => exact h.setTable (by rw [hn]; rfl)

/-- A name is found on both sides or on neither. -/
theorem resolve (h : f.Mirrors i env) (name : String) :
    (f.resolve? i name = none ∧ env.resolve? name = none) ∨
      ∃ s g env', f.resolve? i name = some (s, g) ∧ env.resolve? name = some (s, env') ∧
        g.Mirrors i env' := by
  have happend := resolveAlong_append env.global name env.nested
  rw [← h.tables] at happend
  obtain ⟨ha, hr⟩ | ⟨s, ts, g, ha, hr, hb⟩ := h.separate.resolve?_cases name h.inside
  · rw [ha] at happend
    refine .inl ⟨hr, ?_⟩
    rw [Environment.resolve?, Option.map_eq_none_iff.mp happend.symm]
    rfl
  · rw [ha] at happend
    obtain ⟨⟨s', nested⟩, hs, he⟩ := Option.map_eq_some_iff.mp happend.symm
    cases he
    refine .inr ⟨s', g, _, hr, by rw [Environment.resolve?, hs]; rfl, hb.shape.separate h.separate,
      hb.shape.entries ▸ h.inside, ?_⟩
    rw [Forest.tables, hb.shape.chain, hb.tables]

/-- An action gives the same symbol on both sides, and the scopes agree after it. -/
theorem perform (h : f.Mirrors i env) (action : ScopeAction) :
    (f.perform i action).1 = (env.perform action).1 ∧
      (f.perform i action).2.1.Mirrors (f.perform i action).2.2 (env.perform action).2 := by
  cases action with
  | enter => exact ⟨rfl, h.enter⟩
  | leave => exact ⟨rfl, h.leave⟩
  | define name => exact ⟨congrArg some (h.define name).1, (h.define name).2⟩
  | defineFunctionName name => exact ⟨rfl, h.defineFunctionName name⟩
  | resolve name =>
    rw [Forest.perform, Environment.perform]
    obtain ⟨hf, he⟩ | ⟨s, g, env', hf, he, hm⟩ := h.resolve name
    · rw [hf, he]
      exact ⟨rfl, h⟩
    · rw [hf, he]
      exact ⟨rfl, hm⟩

theorem answers_eq (h : f.Mirrors i env) (actions : List ScopeAction) :
    f.answers i actions = env.answers actions := by
  induction actions generalizing f i env with
  | nil => rfl
  | cons action rest ih =>
    obtain ⟨hs, hm⟩ := h.perform action
    rw [Forest.answers, Environment.answers, ← hs, ← hm.table_eq, ← ih hm]

end Mirrors

/-- Whatever is done to the scopes of a new program, numbered tables answer as the scopes of a
compilation do. -/
theorem answers_new (actions : List ScopeAction) :
    (add {} none .builtins).2.answers 0 actions = Environment.answers {} actions :=
  Mirrors.new.answers_eq actions

end Forest
end ClosureVM
