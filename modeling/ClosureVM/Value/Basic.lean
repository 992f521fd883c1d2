import ClosureVM.Code.Instruction

/-! The values that programs compute with. -/
namespace ClosureVM

/-- The functions that every program can call, in the order of their indices. -/
inductive Builtin
  | len
  | puts
  | first
  | last
  | rest
  | push
  deriving DecidableEq, Repr

namespace Builtin

def all : List Builtin := [len, puts, first, last, rest, push]

def name : Builtin → String
  | len => "len"
  | puts => "puts"
  | first => "first"
  | last => "last"
  | rest => "rest"
  | push => "push"

end Builtin

/-- A function before it captures anything. Two prototypes are the same object iff their
identities agree. -/
structure Prototype where
  id : Nat
  code : Code
  numLocals : Int := 0
  numParams : Int := 0
  name : Option String := none
  deriving DecidableEq, Repr, Inhabited

/-- What can be looked up in a hash. -/
inductive Key
  | int (n : Int)
  | bool (b : Bool)
  | str (s : String)
  deriving DecidableEq, Repr

/-- Arrays, hashes and closures carry an identity, given to them when they are made. -/
inductive Value
  | null
  | bool (b : Bool)
  | int (n : Int)
  | str (s : String)
  | array (id : Nat) (elements : List Value)
  | hash (id : Nat) (entries : List (Key × Value))
  | function (proto : Prototype)
  | closure (id : Nat) (proto : Prototype) (free : List Value)
  | builtin (b : Builtin)
  deriving Inhabited

inductive Kind
  | null
  | boolean
  | integer
  | string
  | array
  | hash
  | function
  | closure
  | builtin
  deriving DecidableEq, Repr

def Kind.label : Kind → String
  | null => "NULL"
  | boolean => "BOOLEAN"
  | integer => "INTEGER"
  | string => "STRING"
  | array => "ARRAY"
  | hash => "HASH"
  | function => "COMPILED_FUNCTION"
  | closure => "CLOSURE"
  | builtin => "BUILTIN"

namespace Value

def kind : Value → Kind
  | null => .null
  | bool _ => .boolean
  | int _ => .integer
  | str _ => .string
  | array .. => .array
  | hash .. => .hash
  | function _ => .function
  | closure .. => .closure
  | builtin _ => .builtin

/-- All values but `false` and `null` count as true. -/
def truthy : Value → Bool
  | bool b => b
  | null => false
  | _ => true

/-- Integers, booleans and strings are hash keys. -/
def key? : Value → Option Key
  | int n => some (.int n)
  | bool b => some (.bool b)
  | str s => some (.str s)
  | _ => none

/-- Scalars are equal by value within their kind, all else by identity. -/
def equals : Value → Value → Bool
  | null, null => true
  | bool a, bool b => a == b
  | int a, int b => a == b
  | str a, str b => a == b
  | array i _, array j _ => i == j
  | hash i _, hash j _ => i == j
  | function p, function q => p.id == q.id
  | closure i _ _, closure j _ _ => i == j
  | builtin a, builtin b => a == b
  | _, _ => false

/-- Like `equals`, but two prototypes are compared by code and counts, whatever their names. -/
def equivalent : Value → Value → Bool
  | function p, function q =>
    p.code == q.code && p.numLocals == q.numLocals && p.numParams == q.numParams
  | a, b => a.equals b

end Value

namespace Key

def kind : Key → Kind
  | int _ => .integer
  | bool _ => .boolean
  | str _ => .string

def toValue : Key → Value
  | int n => .int n
  | bool b => .bool b
  | str s => .str s

end Key

/-- The entries of a hash in the order in which their keys first came. -/
abbrev Entries := List (Key × Value)

namespace Entries

/-- A key that is there keeps its place. -/
def insert (entries : Entries) (k : Key) (v : Value) : Entries :=
  match entries with
  | [] => [(k, v)]
  | e :: rest => if e.1 = k then (k, v) :: rest else e :: Entries.insert rest k v

def get? (entries : Entries) (k : Key) : Option Value :=
  (entries.find? (·.1 = k)).map (·.2)

theorem get?_insert (k l : Key) (v : Value) (entries : Entries) :
    (entries.insert k v).get? l = if l = k then some v else entries.get? l := by
  induction entries with
  | nil => by_cases h : k = l <;> simp [Entries.insert, get?, h, eq_comm]
  | cons e rest ih =>
    unfold get? at ih ⊢
    by_cases he : e.1 = k
    · by_cases hl : k = l <;> simp [Entries.insert, he, hl, eq_comm]
    · by_cases hl : e.1 = l
      · subst l
        simp [Entries.insert, he]
      · simp [Entries.insert, he, hl, ih]

end Entries
end ClosureVM
