import ClosureVM.Node.Basic
import ClosureVM.Text.Decimal
import ClosureVM.Value.Fault
import ClosureVM.Value.Inspect

/-! The values of an evaluator that walks program trees, and what operators and builtins do with
them. A closure is a function literal together with the bindings in scope where it was made. -/
namespace ClosureVM

inductive Datum
  | null
  | bool (b : Bool)
  | int (n : Int)
  | str (s : String)
  | array (id : Nat) (elements : List Datum)
  | hash (id : Nat) (entries : List (Key × Datum))
  | closure (id : Nat) (params : List Node) (body : Node) (name : Option String)
      (scope : List (String × Datum))
  | builtin (b : Builtin)
  deriving Inhabited

/-- Names and what they stand for, most recent first. -/
abbrev Bindings := List (String × Datum)

namespace Datum

def kind : Datum → Kind
  | null => .null
  | bool _ => .boolean
  | int _ => .integer
  | str _ => .string
  | array .. => .array
  | hash .. => .hash
  | closure .. => .closure
  | builtin _ => .builtin

/-- Nothing but `false` and `null` counts as false. -/
def truthy : Datum → Bool
  | null | bool false => false
  | _ => true

/-- Scalars are the same by value within their kind, all else by identity. -/
def same : Datum → Datum → Bool
  | null, null => true
  | bool a, bool b => a == b
  | int a, int b => a == b
  | str a, str b => a == b
  | array i _, array j _ | hash i _, hash j _ | closure i .., closure j .. => i == j
  | builtin a, builtin b => a == b
  | _, _ => false

mutual

/-- A datum as text. Closures show no contents. -/
def inspect : Datum → String
  | null => "null"
  | bool b => boolText b
  | int n => toString n
  | str s => s
  | array _ elements => listText "[" "]" (inspectElements elements)
  | hash _ entries => listText "\x7b" "\x7d" (inspectEntries entries)
  | closure .. => "Closure[0x0]"
  | builtin _ => "builtin function"

def inspectElements : List Datum → List String
  | [] => []
  | d :: rest => d.inspect :: inspectElements rest

def inspectEntries : List (Key × Datum) → List String
  | [] => []
  | (k, d) :: rest => (k.inspect ++ ": " ++ d.inspect) :: inspectEntries rest

end

/-! ### Operators -/

/-- The result of exact arithmetic, if it is an integer of 64 bits. -/
def ofExact (n : Int) : Except Stop Datum :=
  if -9223372036854775808 ≤ n ∧ n ≤ 9223372036854775807 then .ok (.int n)
  else if Text.isWritable n then .error (.fault (.integerOverflow n))
  else .error .unwritable

def negate : Datum → Except Stop Datum
  | int n => ofExact (-n)
  | d => .error (.fault (.negation d.kind))

/-- Integers are added and strings are joined. -/
def add : Datum → Datum → Except Stop Datum
  | int m, int n => ofExact (m + n)
  | str s, str t => .ok (.str (s ++ t))
  | a, b => .error (.fault (.operandKinds a.kind b.kind))

/-- An operator that strings do not have; messages call it `op`. -/
def arithmetic (op : Opcode) (f : Int → Int → Except Stop Datum) : Datum → Datum → Except Stop Datum
  | int m, int n => f m n
  | str _, str _ => .error (.fault (.stringOperator op))
  | a, b => .error (.fault (.operandKinds a.kind b.kind))

/-- Division drops the fraction. -/
def divide (m n : Int) : Except Stop Datum :=
  if n = 0 then .error (.fault .divisionByZero) else ofExact (m.tdiv n)

/-- Only integers are ordered. -/
def greater : Datum → Datum → Except Stop Datum
  | int m, int n => .ok (.bool (n < m))
  | a, b => .error (.fault (.comparison a.kind b.kind))

/-- Messages show the operands as those of `greater`, that is, in exchanged order. -/
def less : Datum → Datum → Except Stop Datum
  | int m, int n => .ok (.bool (m < n))
  | a, b => .error (.fault (.comparison b.kind a.kind))

/-- The meaning of an operator with one operand, if it has one. -/
def unaryOperator? : String → Option (Datum → Except Stop Datum)
  | "!" => some fun d => .ok (.bool !d.truthy)
  | "-" => some negate
  | _ => none

/-- The meaning of an operator with two operands, if it has one. -/
def binaryOperator? : String → Option (Datum → Datum → Except Stop Datum)
  | "+" => some add
  | "-" => some (arithmetic .sub fun m n => ofExact (m - n))
  | "*" => some (arithmetic .mul fun m n => ofExact (m * n))
  | "/" => some (arithmetic .div divide)
  | "==" => some fun a b => .ok (.bool (a.same b))
  | "!=" => some fun a b => .ok (.bool !a.same b)
  | "<" => some less
  | ">" => some greater
  | _ => none

/-! ### Arrays and hashes -/

/-- Integers, booleans and strings are hash keys. -/
def key? : Datum → Option Key
  | bool b => some (.bool b)
  | int n => some (.int n)
  | str s => some (.str s)
  | _ => none

/-- The value of a key, where there is one. -/
def lookup? (entries : List (Key × Datum)) (k : Key) : Option Datum :=
  (entries.find? (·.1 = k)).map (·.2)

/-- What is absent from an array or a hash is `null`. -/
def index (a i : Datum) : Except Fault Datum :=
  match a, i with
  | array _ elements, int n => .ok (if 0 ≤ n then elements[n.toNat]?.getD null else null)
  | array .., _ => .ok null
  | hash _ entries, i => .ok ((i.key?.bind (lookup? entries)).getD null)
  | a, _ => .error (.indexing a.kind)

/-- A key that is there keeps its place. -/
def insert (entries : List (Key × Datum)) (k : Key) (d : Datum) : List (Key × Datum) :=
  match entries with
  | [] => [(k, d)]
  | e :: rest => if e.1 = k then (k, d) :: rest else e :: insert rest k d

/-- The entries that pairs of keys and values make up, one after the other. -/
def entriesOf (entries : List (Key × Datum)) : List (Datum × Datum) →
    Except Fault (List (Key × Datum))
  | [] => .ok entries
  | (k, d) :: rest =>
    match k.key? with
    | some key => entriesOf (insert entries key d) rest
    | none => .error (.hashKey k.kind)

end Datum

/-! ### Builtins -/

namespace Builtin

/-- A builtin that takes an array. -/
def onArray (b : Builtin) (f : List Datum → Datum) : List Datum → Except Fault (Datum × List String)
  | [.array _ elements] => .ok (f elements, [])
  | [d] => .error (.arrayArgument b d.kind)
  | args => .error (.arity 1 args.length)

/-- What a builtin gives back and the lines it writes. A new array has the identity `fresh`. -/
def applyTo (b : Builtin) (fresh : Nat) (args : List Datum) : Except Fault (Datum × List String) :=
  match b with
  | len =>
    match args with
    | [.str s] => .ok (.int s.length, [])
    | [.array _ elements] => .ok (.int elements.length, [])
    | [d] => .error (.lenArgument d.kind)
    | args => .error (.arity 1 args.length)
  | puts => .ok (.null, args.map Datum.inspect)
  | first => b.onArray (fun elements => elements.head?.getD .null) args
  | last => b.onArray (fun elements => elements.getLast?.getD .null) args
  | rest =>
    b.onArray (fun elements => if elements.isEmpty then .null else .array fresh elements.tail) args
  | push =>
    match args with
    | [.array _ elements, d] => .ok (.array fresh (elements ++ [d]), [])
    | [d, _] => .error (.arrayArgument push d.kind)
    | args => .error (.arity 2 args.length)

end Builtin

end ClosureVM
