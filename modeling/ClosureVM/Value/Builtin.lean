import ClosureVM.Value.Fault
import ClosureVM.Value.Inspect

/-! What the builtin functions compute. -/
namespace ClosureVM.Builtin

/-- The result of a builtin and the lines it writes. -/
structure Reply where
  value : Value
  written : List String := []

/-- An array made by the call takes the identity `fresh`. -/
def apply (b : Builtin) (fresh : Nat) (args : List Value) : Except Fault Reply :=
  match b, args with
  | len, [.str s] => .ok ⟨.int s.length, []⟩
  | len, [.array _ elements] => .ok ⟨.int elements.length, []⟩
  | len, [v] => .error (.lenArgument v.kind)
  | len, args => .error (.arity 1 args.length)
  | puts, args => .ok ⟨.null, args.map Value.inspect⟩
  | first, [.array _ elements] => .ok ⟨elements.head?.getD .null, []⟩
  | last, [.array _ elements] => .ok ⟨elements.getLast?.getD .null, []⟩
  | rest, [.array _ []] => .ok ⟨.null, []⟩
  | rest, [.array _ (_ :: elements)] => .ok ⟨.array fresh elements, []⟩
  | push, [.array _ elements, v] => .ok ⟨.array fresh (elements ++ [v]), []⟩
  | push, [v, _] => .error (.arrayArgument push v.kind)
  | push, args => .error (.arity 2 args.length)
  | b, [v] => .error (.arrayArgument b v.kind)
  | _, args => .error (.arity 1 args.length)

end ClosureVM.Builtin
