import ClosureVM.Machine.Step

/-! Whole runs. -/
namespace ClosureVM

/-- Why a run ended early: an error of the program, found at `ip`, a place that does not
exist, or an error that cannot be put in words. -/
inductive Failure
  | fault (f : Fault) (ip : Nat) (calls : List Call)
  | outOfRange
  | unwritable
  deriving DecidableEq, Repr

namespace Machine

/-- Code that cannot be read counts as an error of the program. -/
def failure (m : Machine) : Stop → Failure
  | .fault f => .fault f m.ip m.stackTrace
  | .malformed e => .fault (.badCode e) m.ip m.stackTrace
  | .outOfRange => .outOfRange
  | .unwritable => .unwritable

/-- A run ends when the innermost call has no further instruction. -/
def finished (m : Machine) : Bool := m.frame.code.size ≤ m.frame.ip

/-- Runs for at most `fuel` steps; there is no result if the run is not over by then. -/
def run? (fuel : Nat) (m : Machine) : Option (Except Failure Value × Machine) :=
  if m.finished then some (.ok m.lastPopped, m)
  else
    match fuel with
    | 0 => none
    | fuel + 1 =>
      match MachineM.step m with
      | .ok _ m => run? fuel m
      | .error stop m => some (.error (m.failure stop), m)

end Machine
end ClosureVM
