import ClosureVM.Compiler.Error
import ClosureVM.Machine.Run

/-! Errors as they are shown to people. -/
namespace ClosureVM

/-- An error in words, with what is known of its place. -/
inductive Diagnostic
  | plain (message : String)
  | compile (message : String) (line : Line)
  | runtime (message : String) (ip : Option Int) (calls : List Call)
  deriving DecidableEq, Repr

def Call.text (call : Call) : String :=
  let name := (given? call.name).getD "<anonymous>"
  let ip := (call.ip.map Numeral.text).getD "?"
  s!"at func {name} (ip={ip})"

/-- The lines of an error of a running program. -/
def runtimeLines (message : String) (ip : Option Int) (calls : List Call) : List String :=
  [s!"Runtime error: {message}"] ++ (ip.map (s!"  ip={Text.padded 4 ·}")).toList ++
    calls.map ("  " ++ ·.text)

namespace Diagnostic

/-- Every line of the error of a running program is indented by `indent`. -/
def format (indent : String) : Diagnostic → String
  | plain message => message
  | compile message none => s!"Compile error: {message}"
  | compile message (some line) => s!"Compile error (line {line}): {message}"
  | runtime message ip calls =>
    String.intercalate "\n" ((runtimeLines message ip calls).map (indent ++ ·))

def text (d : Diagnostic) : String := d.format ""

def red (text : String) : String := "\x1b[31m" ++ text ++ "\x1b[0m"

/-- The answer that an interactive host gives. -/
def present (color : Bool) (d : Diagnostic) : String :=
  let text := match d with
    | plain message => message
    | compile .. => "Woops! Compilation failed:\n " ++ d.text
    | runtime .. => "Woops! Executing bytecode failed:\n" ++ d.format " "
  if color then red text else text

end Diagnostic

def CodeError.diagnostic (e : CodeError) : Diagnostic := .plain e.message

def CompileError.diagnostic (e : CompileError) : Diagnostic := .compile e.cause.message e.line

/-- An error outside of a run has no place. -/
def Fault.diagnostic (f : Fault) : Diagnostic := .runtime f.message none []

/-- What is no error of the program, or is one beyond words, has no diagnostic. -/
def Failure.diagnostic? : Failure → Option Diagnostic
  | .fault f ip calls => some (.runtime f.message (some ip) calls)
  | .outOfRange | .unwritable => none

end ClosureVM
