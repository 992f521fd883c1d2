import Mathlib.Logic.Function.Basic
import ClosureVM.Symbol.Environment

/-! Tables under other names. Where different names stay different, all that is done with tables
is done in the same way under other names. -/
namespace ClosureVM

/-- Other names for all names. Different names stay different, and those of the builtins and the
empty name stay as they are. -/
structure IsRenaming (r : String → String) : Prop where
  injective : Function.Injective r
  builtin (b : Builtin) : r b.name = b.name
  empty : r "" = ""

def Symbol.rename (r : String → String) (s : Symbol) : Symbol := { s with name := r s.name }

namespace Table

def rename (r : String → String) (t : Table) : Table :=
  { t with symbols := t.symbols.map (Symbol.rename r), free := t.free.map (Symbol.rename r) }

variable {r : String → String} (hr : IsRenaming r)

include hr

theorem find?_rename (t : Table) (name : String) :
    (t.rename r).find? (r name) = (t.find? name).map (Symbol.rename r) := by
  have hp : (fun s : Symbol => decide (s.name = r name)) ∘ Symbol.rename r =
      fun s => decide (s.name = name) := by
    funext s
    exact decide_eq_decide.mpr hr.injective.eq_iff
  unfold find? rename
  rw [List.find?_map, hp]

theorem insert_rename (t : Table) (s : Symbol) :
    (t.rename r).insert (s.rename r) = (t.insert s).rename r := by
  have hp : (fun u : Symbol => decide (u.name ≠ (s.rename r).name)) ∘ Symbol.rename r =
      fun u => decide (u.name ≠ s.name) := by
    funext u
    exact decide_eq_decide.mpr hr.injective.ne_iff
  unfold insert rename
  rw [List.filter_map, hp, List.map_cons]

theorem define_rename (t : Table) (storage : Storage) (name : String) :
    (t.rename r).define storage (r name) =
      ((t.define storage name).1.rename r, (t.define storage name).2.rename r) := by
  have hi := insert_rename hr t ⟨name, storage, t.numDefinitions⟩
  refine Prod.ext rfl ?_
  exact congrArg (fun t' : Table => { t' with numDefinitions := t.numDefinitions + 1 }) hi

theorem defineFunctionName_rename (t : Table) (name : String) :
    ((t.rename r).defineFunctionName (r name)).2 = (t.defineFunctionName name).2.rename r :=
  insert_rename hr t ⟨name, .self, 0⟩

private theorem capture_rename (t : Table) (outer : Symbol) :
    (t.rename r).capture (outer.rename r) =
      ((t.capture outer).1.rename r, (t.capture outer).2.rename r) := by
  have hi := insert_rename hr t ⟨outer.name, .free, t.free.length⟩
  have hl : (t.rename r).free.length = t.free.length := List.length_map _
  unfold capture
  rw [hl]
  refine Prod.ext rfl ?_
  have hf : (t.rename r).free ++ [outer.rename r] = (t.free ++ [outer]).map (Symbol.rename r) := by
    rw [List.map_append]
    rfl
  rw [hf]
  exact congrArg (fun t' : Table => { t' with free := (t.free ++ [outer]).map (Symbol.rename r) }) hi

private theorem defineBuiltin_rename (t : Table) (index : Int) (b : Builtin) :
    ((t.rename r).defineBuiltin index b.name).2 = (t.defineBuiltin index b.name).2.rename r := by
  have hi := insert_rename hr t ⟨b.name, .builtin, index⟩
  rwa [Symbol.rename, hr.builtin] at hi

theorem builtins_rename : builtins.rename r = builtins := by
  have hfold : ∀ (bs : List (Builtin × Nat)) (t : Table),
      (bs.foldl (fun t b => (t.defineBuiltin b.2 b.1.name).2) t).rename r =
        bs.foldl (fun t b => (t.defineBuiltin b.2 b.1.name).2) (t.rename r) := by
    intro bs
    induction bs with
    | nil => exact fun _ => rfl
    | cons b bs ih =>
      intro t
      rw [List.foldl_cons, List.foldl_cons, ih, defineBuiltin_rename hr]
  exact hfold Builtin.all.zipIdx {}

end Table

namespace Environment

def rename (r : String → String) (env : Environment) : Environment :=
  { global := env.global.rename r, nested := env.nested.map (Table.rename r) }

variable {r : String → String}

theorem current_rename (env : Environment) : (env.rename r).current = env.current.rename r := by
  unfold current rename
  cases env.nested <;> rfl

theorem leave_rename (env : Environment) : (env.rename r).leave = env.leave.rename r := by
  unfold leave rename
  rw [List.map_tail]

variable (hr : IsRenaming r)

include hr

theorem define_rename (env : Environment) (name : String) :
    (env.rename r).define (r name) =
      ((env.define name).1.rename r, (env.define name).2.rename r) := by
  unfold define
  cases hn : env.nested with
  | nil =>
    have h := Table.define_rename hr env.global .global name
    simp only [rename, hn, List.map_nil, h]
  | cons t outer =>
    have h := Table.define_rename hr t .frame name
    simp only [rename, hn, List.map_cons, h]

theorem defineFunctionName_rename (env : Environment) (name : String) :
    (env.rename r).defineFunctionName (r name) = (env.defineFunctionName name).rename r := by
  unfold defineFunctionName
  cases hn : env.nested with
  | nil =>
    have h := Table.defineFunctionName_rename hr env.global name
    simp only [rename, hn, List.map_nil, h]
  | cons t outer =>
    have h := Table.defineFunctionName_rename hr t name
    simp only [rename, hn, List.map_cons, h]

/-- A name is found, and captured on the way, where the name that stands for it is. -/
theorem resolveIn_rename (global : Table) (name : String) (nested : List Table) :
    resolveIn (global.rename r) (r name) (nested.map (Table.rename r)) =
      (resolveIn global name nested).map fun found =>
        (found.1.rename r, found.2.map (Table.rename r)) := by
  induction nested with
  | nil =>
    rw [List.map_nil, resolveIn, resolveIn, Table.find?_rename hr, Option.map_map, Option.map_map]
    rfl
  | cons t outer ih =>
    rw [List.map_cons, resolveIn, resolveIn, Table.find?_rename hr]
    cases t.find? name with
    | some s => rfl
    | none =>
      rw [ih]
      cases resolveIn global name outer with
      | none => rfl
      | some found =>
        have hs : (found.1.rename r).storage = found.1.storage := rfl
        simp only [Option.map_none, Option.map_some, hs]
        split
        · rfl
        · rw [Table.capture_rename hr]
          rfl

theorem resolve?_rename (env : Environment) (name : String) :
    (env.rename r).resolve? (r name) =
      (env.resolve? name).map fun found => (found.1.rename r, found.2.rename r) := by
  unfold resolve?
  have h := resolveIn_rename hr env.global name env.nested
  rw [show (env.rename r).global = env.global.rename r from rfl,
    show (env.rename r).nested = env.nested.map (Table.rename r) from rfl, h, Option.map_map,
    Option.map_map]
  rfl

end Environment
end ClosureVM
