import ClosureVM.Symbol.Table

/-! Tables numbered in the order of their creation, any of which may have inner tables, with
marks to which a table can be reset. -/
namespace ClosureVM

/-- The contents of a table apart from its count of definitions. -/
structure Sheet where
  symbols : List Symbol := []
  free : List Symbol := []
  deriving DecidableEq, Repr, Inhabited

/-- A count of definitions and the sheet it goes with. -/
structure Mark where
  sheet : Nat
  numDefinitions : Nat
  deriving DecidableEq, Repr, Inhabited

/-- A table of the forest; `outer` is the number of its enclosing table. -/
structure Entry where
  outer : Option Nat
  state : Mark
  deriving DecidableEq, Repr, Inhabited

/-- A table that is reset to a mark works on the sheet of the mark from then on, so another
reset to the same mark finds what was written there in between. -/
structure Forest where
  sheets : Array Sheet := #[]
  entries : Array Entry := #[]
  marks : Array Mark := #[]
  deriving DecidableEq, Repr, Inhabited

namespace Forest

def view (f : Forest) (m : Mark) : Table :=
  let sheet := f.sheets.getD m.sheet {}
  { symbols := sheet.symbols, free := sheet.free, numDefinitions := m.numDefinitions }

def entry (f : Forest) (i : Nat) : Entry := f.entries.getD i default

def table (f : Forest) (i : Nat) : Table := f.view (f.entry i).state

def setTable (f : Forest) (i : Nat) (t : Table) : Forest :=
  let e := f.entry i
  { f with
    sheets := f.sheets.setIfInBounds e.state.sheet ⟨t.symbols, t.free⟩
    entries := f.entries.setIfInBounds i
      { e with state := { e.state with numDefinitions := t.numDefinitions } } }

/-- A new table, inside `outer` if that is given. -/
def add (f : Forest) (outer : Option Nat) (t : Table) : Nat × Forest :=
  (f.entries.size,
    { f with
      sheets := f.sheets.push ⟨t.symbols, t.free⟩
      entries := f.entries.push ⟨outer, ⟨f.sheets.size, t.numDefinitions⟩⟩ })

/-- The enclosing tables of table `i`, itself first. -/
def chain (f : Forest) (i : Nat) : List Nat :=
  match (f.entry i).outer with
  | none => [i]
  | some j => if j < i then i :: f.chain j else [i]
termination_by i

def define (f : Forest) (i : Nat) (name : String) : Symbol × Forest :=
  let storage : Storage := if (f.entry i).outer.isNone then .global else .frame
  let (s, t) := (f.table i).define storage name
  (s, f.setTable i t)

def defineBuiltin (f : Forest) (i : Nat) (index : Int) (name : String) : Symbol × Forest :=
  let (s, t) := (f.table i).defineBuiltin index name
  (s, f.setTable i t)

def defineFunctionName (f : Forest) (i : Nat) (name : String) : Symbol × Forest :=
  let (s, t) := (f.table i).defineFunctionName name
  (s, f.setTable i t)

/-- Looks for a name along a chain, and captures on the way back. -/
def resolveIn (f : Forest) (name : String) : List Nat → Option (Symbol × Forest)
  | [] => none
  | i :: outer =>
    match (f.table i).find? name with
    | some s => some (s, f)
    | none =>
      match f.resolveIn name outer with
      | none => none
      | some (s, f) =>
        if s.storage.isShared then some (s, f)
        else let (s, t) := (f.table i).capture s; some (s, f.setTable i t)

def resolve? (f : Forest) (i : Nat) (name : String) : Option (Symbol × Forest) :=
  f.resolveIn name (f.chain i)

/-- Remembers what table `i` holds now. -/
def mark (f : Forest) (i : Nat) : Nat × Forest :=
  let t := f.table i
  (f.marks.size,
    { f with
      sheets := f.sheets.push ⟨t.symbols, t.free⟩
      marks := f.marks.push ⟨f.sheets.size, t.numDefinitions⟩ })

/-- Puts table `i` back to a mark. -/
def reset (f : Forest) (i m : Nat) : Forest :=
  match f.marks[m]? with
  | none => f
  | some mark => { f with entries := f.entries.setIfInBounds i { f.entry i with state := mark } }

end Forest
end ClosureVM
