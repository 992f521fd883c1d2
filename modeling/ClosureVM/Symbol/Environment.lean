import ClosureVM.Symbol.Table

/-! The scopes that surround a place in a program. -/
namespace ClosureVM

/-- The table of the program and those of the functions around a place, innermost first. -/
structure Environment where
  global : Table := .builtins
  nested : List Table := []
  deriving DecidableEq, Repr, Inhabited

namespace Environment

def current (env : Environment) : Table := env.nested.head?.getD env.global

/-- Enters a function. -/
def enter (env : Environment) : Environment := { env with nested := {} :: env.nested }

def leave (env : Environment) : Environment := { env with nested := env.nested.tail }

def define (env : Environment) (name : String) : Symbol × Environment :=
  match env.nested with
  | [] => let (s, t) := env.global.define .global name; (s, { env with global := t })
  | t :: outer => let (s, t) := t.define .frame name; (s, { env with nested := t :: outer })

def defineFunctionName (env : Environment) (name : String) : Environment :=
  match env.nested with
  | [] => { env with global := (env.global.defineFunctionName name).2 }
  | t :: outer => { env with nested := (t.defineFunctionName name).2 :: outer }

/-- Looks outward. A name found in an outer function is captured by every function between
there and here, outermost first. -/
def resolveIn (global : Table) (name : String) : List Table → Option (Symbol × List Table)
  | [] => (global.find? name).map (·, [])
  | t :: outer =>
    match t.find? name with
    | some s => some (s, t :: outer)
    | none =>
      match resolveIn global name outer with
      | none => none
      | some (s, outer) =>
        if s.storage.isShared then some (s, t :: outer)
        else let (s, t) := t.capture s; some (s, t :: outer)

def resolve? (env : Environment) (name : String) : Option (Symbol × Environment) :=
  (resolveIn env.global name env.nested).map fun (s, nested) => (s, { env with nested })

end Environment
end ClosureVM
