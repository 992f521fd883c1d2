import ClosureVM.Value.Basic

/-! Symbol tables: where the names of one lexical scope are kept. -/
namespace ClosureVM

/-- Where the value of a name lives: in the globals, in the frame of the running function,
among the builtins, among the captured values, or as the running function itself. -/
inductive Storage
  | global
  | frame
  | builtin
  | free
  | self
  deriving DecidableEq, Repr

namespace Storage

def label : Storage → String
  | global => "GLOBAL"
  | frame => "LOCAL"
  | builtin => "BUILTIN"
  | free => "FREE"
  | self => "FUNCTION"

def ofLabel? (s : String) : Option Storage :=
  [global, frame, builtin, free, self].find? (·.label == s)

/-- Globals and builtins are reached from every scope, so no function captures them. -/
def isShared : Storage → Bool
  | global | builtin => true
  | _ => false

end Storage

structure Symbol where
  name : String
  storage : Storage
  index : Int
  deriving DecidableEq, Repr

/-- The names of one scope. `free` lists what the scope captures, as the enclosing scope sees
it, in the order of capture. -/
structure Table where
  symbols : List Symbol := []
  numDefinitions : Nat := 0
  free : List Symbol := []
  deriving DecidableEq, Repr, Inhabited

namespace Table

def find? (t : Table) (name : String) : Option Symbol := t.symbols.find? (·.name = name)

/-- A symbol takes the place of one with the same name. -/
def insert (t : Table) (s : Symbol) : Table :=
  { t with symbols := s :: t.symbols.filter (·.name ≠ s.name) }

theorem find?_insert (t : Table) (s : Symbol) (name : String) :
    (t.insert s).find? name = if name = s.name then some s else t.find? name := by
  unfold insert find?
  by_cases h : s.name = name
  · simp [h]
  · rw [if_neg (Ne.symm h), List.find?_cons_of_neg (by simpa using h), List.find?_filter]
    congr 1
    funext u
    by_cases hu : u.name = name
    · simp [hu, Ne.symm h]
    · simp [hu]

/-- A new variable, in the next place of the scope. -/
def define (t : Table) (storage : Storage) (name : String) : Symbol × Table :=
  let s := ⟨name, storage, t.numDefinitions⟩
  (s, { t.insert s with numDefinitions := t.numDefinitions + 1 })

def defineBuiltin (t : Table) (index : Int) (name : String) : Symbol × Table :=
  let s := ⟨name, .builtin, index⟩
  (s, t.insert s)

/-- The name by which a function refers to itself. -/
def defineFunctionName (t : Table) (name : String) : Symbol × Table :=
  let s := ⟨name, .self, 0⟩
  (s, t.insert s)

/-- Captures a symbol of the enclosing scope; later look-ups find the captured one. -/
def capture (t : Table) (outer : Symbol) : Symbol × Table :=
  let s := ⟨outer.name, .free, t.free.length⟩
  (s, { t.insert s with free := t.free ++ [outer] })

/-- The outermost table of a new program, which holds the builtins. -/
def builtins : Table :=
  Builtin.all.zipIdx.foldl (fun t (b, i) => (t.defineBuiltin i b.name).2) {}

end Table
end ClosureVM
