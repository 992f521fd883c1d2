import ClosureVM.Compiler.Generate
import ClosureVM.Diagnostic

/-! A host that compiles and runs one program after the other: names, constants and globals
of earlier programs stay. -/
namespace ClosureVM

structure Session where
  color : Bool := false
  tracing : Bool := false
  maxSteps : Option Int := none
  constants : Array Value := #[]
  globals : Slots := { size := numGlobals }
  names : Table := .builtins
  /-- The code of the program compiled last. -/
  last : Option Code := none
  output : Array Output := #[]
  fresh : Nat := Machine.mainId + 1
  deriving Inhabited

/-- Why a program gave no value. -/
inductive SessionError
  | compile (e : CompileStop)
  | run (e : Failure)
  deriving DecidableEq, Repr

def SessionError.diagnostic? : SessionError → Option Diagnostic
  | .compile (.error e) => some e.diagnostic
  | .compile (.missing _) => none
  | .run e => e.diagnostic?

namespace Session

def compile (s : Session) (program : Node) : Except CompileStop Code × Session :=
  match compileProgram program { constants := s.constants, env := { global := s.names } } with
  | .ok code c =>
    (.ok code, { s with constants := c.constants, names := c.env.global, last := some code })
  | .error e c => (.error e, { s with constants := c.constants, names := c.env.global })

def machine (s : Session) (code : Code) : Machine :=
  Machine.new code s.constants s.globals { maxSteps := s.maxSteps } s.tracing s.fresh

/-- Runs code for at most `fuel` steps; output and globals stay even if the run fails. -/
def run? (fuel : Nat) (s : Session) (code : Code) : Option (Except Failure Value × Session) :=
  ((s.machine code).run? fuel).map fun (r, m) =>
    (r, { s with globals := m.globals, output := s.output ++ m.output, fresh := m.fresh })

/-- Compiles a program and runs it. -/
def execute? (fuel : Nat) (s : Session) (program : Node) :
    Option (Except SessionError Value × Session) :=
  match s.compile program with
  | (.error e, s) => some (.error (.compile e), s)
  | (.ok code, s) => (s.run? fuel code).map fun (r, s) => (r.mapError .run, s)

/-- The value of a program or the error that stopped it, as text. -/
def evaluate? (fuel : Nat) (s : Session) (program : Node) :
    Option (Except SessionError String × Session) :=
  (s.execute? fuel program).map fun (r, s) =>
    match r with
    | .ok v => (.ok v.inspect, s)
    | .error e =>
      match e.diagnostic? with
      | some d => (.ok (d.present s.color), s)
      | none => (.error e, s)

/-- The last program and the constants so far. -/
def lastImage? (s : Session) : Option Image := s.last.map (⟨·, s.constants⟩)

end Session
end ClosureVM
