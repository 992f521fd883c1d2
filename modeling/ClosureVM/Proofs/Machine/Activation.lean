import ClosureVM.Machine.Run
import ClosureVM.Proofs.Code.Continuation

/-! A machine on structured code in which every call owns its part of the stack. It has no
instruction pointer, no step counter and no trace. -/
namespace ClosureVM

/-- A call in progress: its closure, which is `null` for the program itself, the code it still
has to execute, its locals, and the values it keeps on the stack, top first. -/
structure Activation where
  self : Value := .null
  code : List Piece
  locals : List Value := []
  temps : List Value := []

def Activation.withTemps (a : Activation) (temps : List Value) : Activation := { a with temps }

/-- What a call has on the stack, from bottom to top. -/
def Activation.values (a : Activation) : List Value := a.locals ++ a.temps.reverse

/-- The stack of nested calls, innermost first. -/
def stackOf : List Activation → List Value
  | [] => []
  | a :: callers => stackOf callers ++ a.values

structure Config where
  constants : Array Value
  globals : Slots
  limits : Limits
  tracing : Bool
  lastPopped : Value := .null
  current : Activation
  callers : List Activation := []
  written : List String := []
  fresh : Nat

/-- What an instruction comes to. A configuration is `stuck` where an instruction would reach
beyond what its call owns. -/
inductive Effect
  | next (c : Config)
  | stop (s : Stop) (c : Config)
  | stuck

namespace Config

def stack (c : Config) : List Value := stackOf (c.current :: c.callers)

def height (c : Config) : Nat := c.stack.length

def withTemps (c : Config) (temps : List Value) : Config :=
  { c with current := c.current.withTemps temps }

@[simp] theorem temps_withTemps (c : Config) (temps : List Value) :
    (c.withTemps temps).current.temps = temps := rfl

def withCode (c : Config) (code : List Piece) : Config :=
  { c with current := { c.current with code } }

def push (c : Config) (v : Value) : Effect :=
  if c.limits.stackSize ≤ c.height then .stop (.fault .stackOverflow) c
  else .next (c.withTemps (v :: c.current.temps))

/-- Pushes the result of an operation, or stops. -/
def pushResult (c : Config) : Except Stop Value → Effect
  | .ok v => c.push v
  | .error s => .stop s c

/-- Pushes a value that takes the next identity. -/
def pushNew (c : Config) (make : Nat → Value) : Effect :=
  Config.push { c with fresh := c.fresh + 1 } (make c.fresh)

/-- Pushes what a look-up finds. -/
def pushFound (c : Config) : Option Value → Effect
  | some v => c.push v
  | none => .stuck

/-- Hands the two topmost values, the lower one first, to an operation. -/
def binary (c : Config) (f : Value → Value → Except Stop Value) : Effect :=
  match c.current.temps with
  | right :: left :: temps => (c.withTemps temps).pushResult (f left right)
  | _ => .stuck

/-- Enters a closure whose arguments are on the stack. -/
noncomputable def enter (c : Config) (callee : Value) (proto : Prototype) (args : List Value)
    (temps : List Value) : Effect :=
  let numArgs := args.length
  if (numArgs : Int) ≠ proto.numParams then .stop (.fault (.arity proto.numParams numArgs)) c
  else if c.limits.stackSize < c.height - numArgs + proto.numLocals then
    .stop (.fault .stackOverflow) c
  else if c.limits.maxFrames ≤ c.callers.length + 1 then
    .stop (.fault (.frameOverflow c.limits.maxFrames)) c
  else
    match proto.body? with
    | none => .stuck
    | some code =>
      if (numArgs : Int) ≤ proto.numLocals then
        let vacant := List.replicate (proto.numLocals.toNat - numArgs) .null
        .next { c with
          current := { self := callee, code, locals := args ++ vacant }
          callers := c.current.withTemps (callee :: temps) :: c.callers }
      else .stuck

def callBuiltin (c : Config) (b : Builtin) (args temps : List Value) : Effect :=
  let c' := { c with fresh := c.fresh + 1 }
  match b.apply c.fresh args with
  | .error f => .stop (.fault f) c'
  | .ok reply =>
    (Config.withTemps { c' with written := c.written ++ reply.written } temps).push reply.value

noncomputable def call (c : Config) (numArgs : Nat) : Effect :=
  let args := (c.current.temps.take numArgs).reverse
  match c.current.temps.drop numArgs with
  | [] => .stuck
  | callee :: temps =>
    match callee with
    | .closure _ proto _ => c.enter callee proto args temps
    | .builtin b => c.callBuiltin b args temps
    | v => .stop (.fault (.calling v.kind)) c

/-- Goes back to the caller, where the callee gives way to its result. -/
def leave (c : Config) (v : Value) : Effect :=
  match c.callers with
  | [] => .stuck
  | caller :: callers =>
    match caller.temps with
    | [] => .stuck
    | _ :: temps => Config.push { c with current := caller.withTemps temps, callers } v

end Config

/-- The entries that keys and values in turn make up. -/
def Entries.ofValues (entries : Entries) : List Value → Except Fault Entries
  | k :: v :: rest =>
    match k.hashKey with
    | .ok key => Entries.ofValues (entries.insert key v) rest
    | .error f => .error f
  | _ => .ok entries

namespace Config

def makeHash (c : Config) (n : Nat) : Effect :=
  let temps := c.current.temps
  if n ≤ temps.length ∧ n % 2 = 0 then
    match Entries.ofValues [] (temps.take n).reverse with
    | .error f => .stop (.fault f) c
    | .ok entries => (c.withTemps (temps.drop n)).pushNew (.hash · entries)
  else .stuck

def makeClosure (c : Config) (constant numFree : Nat) : Effect :=
  let temps := c.current.temps
  match c.constants[constant]? with
  | some (.function proto) =>
    if numFree ≤ temps.length then
      (c.withTemps (temps.drop numFree)).pushNew (.closure · proto (temps.take numFree).reverse)
    else .stuck
  | _ => .stuck

/-- Executes an instruction that has been taken off the code. -/
noncomputable def execute (c : Config) (op : Opcode) (a b : Nat) : Effect :=
  let temps := c.current.temps
  match op with
  | .constant => c.pushFound c.constants[a]?
  | .add | .sub | .mul | .div => c.binary (Value.arithmetic op)
  | .equal | .notEqual | .greaterThan =>
    c.binary fun left right => ((left.compare op right).map .bool).mapError .fault
  | .pop =>
    match temps with
    | v :: temps =>
      let lastPopped := if c.callers.isEmpty then v else c.lastPopped
      .next (Config.withTemps { c with lastPopped } temps)
    | [] => .stuck
  | .pushTrue => c.push (.bool true)
  | .pushFalse => c.push (.bool false)
  | .pushNull => c.push .null
  | .bang =>
    match temps with
    | v :: temps => (c.withTemps temps).push (.bool !v.truthy)
    | [] => .stuck
  | .minus =>
    match temps with
    | v :: temps => (c.withTemps temps).pushResult v.negate
    | [] => .stuck
  | .jump | .jumpNotTruthy => .stuck
  | .setGlobal =>
    match temps with
    | v :: temps =>
      if a < c.globals.size then
        .next (Config.withTemps { c with globals := c.globals.set a v } temps)
      else .stuck
    | [] => .stuck
  | .getGlobal => c.pushFound (c.globals.get? a)
  | .setLocal =>
    match temps with
    | v :: temps =>
      if a < c.current.locals.length then
        .next { c with current := { c.current with locals := c.current.locals.set a v, temps } }
      else .stuck
    | [] => .stuck
  | .getLocal => c.pushFound c.current.locals[a]?
  | .getBuiltin => c.pushFound (Builtin.all[a]?.map .builtin)
  | .getFree =>
    match c.current.self with
    | .closure _ _ free => c.pushFound free[a]?
    | _ => .stuck
  | .currentClosure =>
    match c.current.self with
    | .closure .. => c.push c.current.self
    | _ => .stuck
  | .array =>
    if a ≤ temps.length then
      (c.withTemps (temps.drop a)).pushNew (.array · (temps.take a).reverse)
    else .stuck
  | .hash => c.makeHash a
  | .index => c.binary fun left sub => (left.index sub).mapError .fault
  | .call => c.call a
  | .returnValue =>
    match temps with
    | v :: _ => c.leave v
    | [] => .stuck
  | .returnNull => c.leave .null
  | .closure => c.makeClosure a b

noncomputable def step (c : Config) : Effect :=
  match c.current.code with
  | [] => .stuck
  | .ins i :: rest =>
    (c.withCode rest).execute i.op (i.operands.getD 0 0) (i.operands.getD 1 0)
  | .branch t e :: rest =>
    match c.current.temps with
    | v :: temps =>
      .next ((c.withTemps temps).withCode (if v.truthy then t ++ .skip :: rest else e ++ rest))
    | [] => .stuck
  | .skip :: rest => .next (c.withCode rest)

end Config
end ClosureVM
