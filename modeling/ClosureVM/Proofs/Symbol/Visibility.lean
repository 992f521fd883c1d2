import Mathlib.Data.Finset.Insert
import ClosureVM.Proofs.Symbol.Capture

/-! Which names can be seen at a place of a program. Sets of names, one for the program and one for
each function around the place, say it without any symbols: captures add nothing that could not be
seen before. -/
namespace ClosureVM

/-- The names of the program and of the functions around a place, innermost first. -/
structure Scopes where
  program : Finset String
  functions : List (Finset String) := []
  deriving DecidableEq

namespace Scopes

/-- The name stands in one of the sets. -/
def Sees (scopes : Scopes) (name : String) : Prop :=
  name ∈ scopes.program ∨ ∃ names ∈ scopes.functions, name ∈ names

instance (scopes : Scopes) (name : String) : Decidable (scopes.Sees name) :=
  inferInstanceAs (Decidable (_ ∨ _))

/-- Adds a name to the innermost set. -/
def add (scopes : Scopes) (name : String) : Scopes :=
  match scopes.functions with
  | [] => { scopes with program := insert name scopes.program }
  | names :: outer => { scopes with functions := insert name names :: outer }

def enter (scopes : Scopes) : Scopes := { scopes with functions := ∅ :: scopes.functions }

def leave (scopes : Scopes) : Scopes := { scopes with functions := scopes.functions.tail }

theorem sees_cons {program names : Finset String} {outer : List (Finset String)} {name : String} :
    Sees ⟨program, names :: outer⟩ name ↔ name ∈ names ∨ Sees ⟨program, outer⟩ name := by
  simp only [Sees, List.mem_cons, exists_eq_or_imp]
  exact or_left_comm

end Scopes

namespace Table

variable {t : Table} {s : Symbol} {name : String}

/-- The names for which a table holds a symbol. -/
def bound (t : Table) : Finset String := (t.symbols.map Symbol.name).toFinset

theorem mem_bound_iff : name ∈ t.bound ↔ ∃ s, t.find? name = some s := by
  rw [bound, List.mem_toFinset, List.mem_map, ← Option.isSome_iff_exists, find?, List.find?_isSome]
  simp

theorem not_mem_bound (h : t.find? name = none) : name ∉ t.bound := by
  rw [mem_bound_iff, h]
  rintro ⟨s, ⟨⟩⟩

theorem bound_insert : (t.insert s).bound = Insert.insert s.name t.bound := by
  ext name
  rw [Finset.mem_insert, mem_bound_iff, mem_bound_iff, find?_insert]
  by_cases h : name = s.name
  · simp [h]
  · simp [h]

end Table

/-- Every name of a set stands in the table that goes with it, and every name of a table can be seen
where the table is in use. -/
inductive Shown (program : Finset String) : List Table → List (Finset String) → Prop
  | nil : Shown program [] []
  | cons {t : Table} {nested : List Table} {names : Finset String} {outer : List (Finset String)} :
    names ⊆ t.bound → (∀ name ∈ t.bound, Scopes.Sees ⟨program, names :: outer⟩ name) →
    Shown program nested outer → Shown program (t :: nested) (names :: outer)

/-- The sets say which names can be resolved. -/
structure Environment.Shows (env : Environment) (scopes : Scopes) : Prop where
  program : env.global.bound = scopes.program
  functions : Shown scopes.program env.nested scopes.functions

namespace Shown

variable {program : Finset String} {t : Table} {nested nested' : List Table}
  {functions : List (Finset String)} {s : Symbol} {name : String}

theorem insert {names : Finset String} {outer : List (Finset String)}
    (h : Shown program (t :: nested) (names :: outer)) {t' : Table}
    (ht : t'.bound = Insert.insert name t.bound) :
    Shown program (t' :: nested) (Insert.insert name names :: outer) := by
  cases h with
  | cons hsub hsees h =>
    refine .cons ?_ ?_ h
    · rw [ht]
      exact Finset.insert_subset_insert name hsub
    · intro other ho
      rw [ht, Finset.mem_insert] at ho
      rw [Scopes.sees_cons, Finset.mem_insert]
      obtain rfl | ho := ho
      · exact .inl (.inl rfl)
      · exact (Scopes.sees_cons.mp (hsees other ho)).imp_left .inr

private theorem resolveIn_none {global : Table} (hg : global.bound = program)
    (h : Shown program nested functions)
    (hr : Environment.resolveIn global name nested = none) :
    ¬Scopes.Sees ⟨program, functions⟩ name := by
  induction h with
  | nil =>
    have hf := Option.map_eq_none_iff.mp hr
    rintro (hp | ⟨names, hn, -⟩)
    · exact Table.not_mem_bound hf (hg ▸ hp)
    · cases hn
  | @cons t nested names outer hsub _ _ ih =>
    rw [Environment.resolveIn] at hr
    rw [Scopes.sees_cons]
    split at hr
    · cases hr
    · rename_i hf
      split at hr
      · rename_i hn
        exact not_or.mpr ⟨fun hm => Table.not_mem_bound hf (hsub hm), ih hn⟩
      · split at hr <;> cases hr

/-- A name that is resolved can be seen, and capturing it changes nothing that can be seen. -/
theorem resolveIn_some {global : Table} (hg : global.bound = program)
    (h : Shown program nested functions)
    (hr : Environment.resolveIn global name nested = some (s, nested')) :
    s.name = name ∧ Scopes.Sees ⟨program, functions⟩ name ∧ Shown program nested' functions := by
  induction h generalizing s nested' with
  | nil =>
    obtain ⟨u, hf, he⟩ := Option.map_eq_some_iff.mp hr
    cases he
    exact ⟨Table.name_of_find? hf, .inl (hg ▸ Table.mem_bound_iff.mpr ⟨_, hf⟩), .nil⟩
  | @cons t nested names outer hsub hsees hrest ih =>
    rw [Environment.resolveIn] at hr
    split at hr
    · rename_i hf
      cases hr
      exact ⟨Table.name_of_find? hf, hsees name (Table.mem_bound_iff.mpr ⟨_, hf⟩),
        .cons hsub hsees hrest⟩
    · split at hr
      · cases hr
      · rename_i u outer' ho
        obtain ⟨hname, hseen, hshown⟩ := ih ho
        have hseen' : Scopes.Sees ⟨program, names :: outer⟩ name :=
          Scopes.sees_cons.mpr (.inr hseen)
        split at hr
        · cases hr
          exact ⟨hname, hseen', .cons hsub hsees hshown⟩
        · cases hr
          have hb : (t.capture u).2.bound = Insert.insert name t.bound := by
            rw [← hname]
            exact Table.bound_insert
          refine ⟨hname, hseen', .cons ?_ ?_ hshown⟩
          · exact hsub.trans (hb ▸ Finset.subset_insert name t.bound)
          · intro other ho
            obtain rfl | ho := Finset.mem_insert.mp (hb ▸ ho)
            · exact hseen'
            · exact hsees other ho

end Shown

namespace Environment

/-- The innermost table has one name more. -/
inductive Adds (name : String) : Environment → Environment → Prop
  | program {global global' : Table} :
    global'.bound = insert name global.bound → Adds name ⟨global, []⟩ ⟨global', []⟩
  | function {global t t' : Table} {outer : List Table} :
    t'.bound = insert name t.bound → Adds name ⟨global, t :: outer⟩ ⟨global, t' :: outer⟩

private theorem adds_define (env : Environment) (name : String) :
    Adds name env (env.define name).2 := by
  obtain ⟨global, nested⟩ := env
  cases nested with
  | nil => exact .program Table.bound_insert
  | cons t outer => exact .function Table.bound_insert

private theorem adds_defineFunctionName (env : Environment) (name : String) :
    Adds name env (env.defineFunctionName name) := by
  obtain ⟨global, nested⟩ := env
  cases nested with
  | nil => exact .program Table.bound_insert
  | cons t outer => exact .function Table.bound_insert

end Environment

namespace Environment.Shows

variable {env env' : Environment} {scopes : Scopes} (h : env.Shows scopes)
include h

theorem resolve?_none {name : String} (hr : env.resolve? name = none) : ¬scopes.Sees name :=
  h.functions.resolveIn_none h.program (Option.map_eq_none_iff.mp hr)

theorem resolve?_some {name : String} {s : Symbol} (hr : env.resolve? name = some (s, env')) :
    scopes.Sees name ∧ env'.Shows scopes := by
  obtain ⟨⟨_, nested⟩, hin, ⟨⟩⟩ := Option.map_eq_some_iff.mp hr
  obtain ⟨-, hseen, hshown⟩ := h.functions.resolveIn_some h.program hin
  exact ⟨hseen, h.program, hshown⟩

theorem adds {name : String} (ha : Adds name env env') : env'.Shows (scopes.add name) := by
  obtain ⟨program, functions⟩ := scopes
  obtain ⟨hp, hf⟩ := h
  obtain rfl : env.global.bound = program := hp
  cases ha with
  | program hg =>
    cases hf with
    | nil => exact ⟨hg, .nil⟩
  | function ht =>
    cases hf with
    | cons hsub hsees hrest => exact ⟨rfl, (Shown.cons hsub hsees hrest).insert ht⟩

theorem define (name : String) : (env.define name).2.Shows (scopes.add name) :=
  h.adds (env.adds_define name)

theorem defineFunctionName (name : String) :
    (env.defineFunctionName name).Shows (scopes.add name) :=
  h.adds (env.adds_defineFunctionName name)

theorem enter : env.enter.Shows scopes.enter :=
  ⟨h.program, .cons (Finset.empty_subset _) (fun _ hn => by cases hn) h.functions⟩

theorem leave : env.leave.Shows scopes.leave := by
  obtain ⟨global, nested⟩ := env
  obtain ⟨program, functions⟩ := scopes
  obtain ⟨hp, hf⟩ := h
  cases hf with
  | nil => exact ⟨hp, .nil⟩
  | cons _ _ hrest => exact ⟨hp, hrest⟩

end Environment.Shows
end ClosureVM
