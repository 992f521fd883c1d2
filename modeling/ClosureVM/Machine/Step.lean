import ClosureVM.Code.Listing
import ClosureVM.Machine.State
import ClosureVM.Value.Builtin
import ClosureVM.Value.Operation

/-! What each instruction does. -/
namespace ClosureVM.MachineM

def fault {α : Type} (f : Fault) : MachineM α := throw (.fault f)

def need {α : Type} : Option α → MachineM α
  | some a => pure a
  | none => throw .outOfRange

def check {α : Type} : Except Fault α → MachineM α
  | .ok a => pure a
  | .error f => fault f

def ofExcept {α : Type} : Except Stop α → MachineM α
  | .ok a => pure a
  | .error stop => throw stop

/-- A new identity. -/
def allocate : MachineM Nat := modifyGet fun m => (m.fresh, { m with fresh := m.fresh + 1 })

def write (line : Output) : MachineM Unit :=
  modify fun m => { m with output := m.output.push line }

/-! ### Stack and frames -/

def sp : MachineM Int := return (← get).sp

def setSp (sp : Int) : MachineM Unit := modify fun m => { m with sp }

def slot (i : Int) : MachineM Value := do need ((← get).stack.at? i)

def setSlot (i : Int) (v : Value) : MachineM Unit := do
  let i ← need (place? (← get).stack.size i)
  modify fun m => { m with stack := m.stack.set i v }

def push (v : Value) : MachineM Unit := do
  let sp ← sp
  if (← get).limits.stackSize ≤ sp then fault .stackOverflow
  setSlot sp v
  setSp (sp + 1)

/-- Only a stack pointer at zero is an underflow. -/
def pop : MachineM Value := do
  let sp ← sp
  if sp = 0 then fault .stackUnderflow
  setSp (sp - 1)
  slot (sp - 1)

/-- The values in the `n` places below the stack pointer. -/
def top (n : Int) : MachineM (List Value) := do
  let sp ← sp
  return (← get).stack.slice (sp - n) sp

/-- Takes the `n` values on top off the stack. -/
def popMany (n : Nat) : MachineM (List Value) := do
  let values ← top n
  setSp ((← sp) - n)
  return values

def pushFrame (fr : Frame) : MachineM Unit := do
  let m ← get
  if m.limits.maxFrames ≤ m.depth then fault (.frameOverflow m.limits.maxFrames)
  set { m with frame := fr, callers := m.frame :: m.callers }

/-- Ends the innermost call and returns its frame. -/
def popFrame : MachineM Frame := do
  let m ← get
  match m.callers with
  | [] => fault .returnOutsideFunction
  | fr :: callers =>
    set { m with frame := fr, callers }
    return m.frame

def jumpTo (target : Nat) : MachineM Unit :=
  modify fun m => { m with frame := { m.frame with ip := target } }

section

variable {α : Type} (m : Machine)

@[simp] theorem fault_apply (f : Fault) : (fault f : MachineM α) m = .error (.fault f) m := rfl

@[simp] theorem need_some (a : α) : need (some a) m = .ok a m := rfl

@[simp] theorem need_none : (need none : MachineM α) m = .error .outOfRange m := rfl

@[simp] theorem check_ok (a : α) : check (.ok a) m = .ok a m := rfl

@[simp] theorem check_error (f : Fault) :
    (check (.error f) : MachineM α) m = .error (.fault f) m := rfl

@[simp] theorem sp_apply : sp m = .ok m.sp m := rfl

@[simp] theorem setSp_apply (sp : Int) : setSp sp m = .ok () { m with sp } := rfl

@[simp] theorem jumpTo_apply (target : Nat) :
    jumpTo target m = .ok () { m with frame := { m.frame with ip := target } } := rfl

end

/-! ### Calls -/

/-- Sets `n` places from `i` on to `null`. -/
def clear (i : Int) : (n : Nat) → MachineM Unit
  | 0 => pure ()
  | n + 1 => do
    setSlot i .null
    clear (i + 1) n

/-- The arguments become the first locals; the other locals start as `null`. -/
def callClosure (id : Nat) (proto : Prototype) (free : List Value) (numArgs : Int) :
    MachineM Unit := do
  if numArgs ≠ proto.numParams then fault (.arity proto.numParams numArgs)
  let sp ← sp
  let base := sp - numArgs
  let top := base + proto.numLocals
  if (← get).limits.stackSize < top then fault .stackOverflow
  pushFrame { id, proto, free, base }
  clear sp (top - sp).toNat
  setSp top

def callBuiltin (b : Builtin) (numArgs : Int) : MachineM Unit := do
  let args ← top numArgs
  let reply ← check (b.apply (← allocate) args)
  reply.written.forM fun text => write (.puts text)
  setSp ((← sp) - numArgs - 1)
  push reply.value

/-- Calls the value below `numArgs` arguments. -/
def call (numArgs : Int) : MachineM Unit := do
  match ← slot ((← sp) - 1 - numArgs) with
  | .closure id proto free => callClosure id proto free numArgs
  | .builtin b => callBuiltin b numArgs
  | v => fault (.calling v.kind)

/-- Goes back to the caller: callee, arguments and locals are dropped, and `v` is pushed. -/
def leave (v : Value) : MachineM Unit := do
  let fr ← popFrame
  setSp (fr.base - 1)
  push v

/-! ### Compound values -/

/-- The entries in the places from `i` on, a key and a value each. -/
def readEntries (i : Int) (entries : Entries) : (n : Nat) → MachineM Entries
  | 0 => pure entries
  | n + 1 => do
    let k ← slot i
    let v ← slot (i + 1)
    readEntries (i + 2) (entries.insert (← check k.hashKey) v) n

def makeArray (n : Nat) : MachineM Unit := do
  let elements ← popMany n
  push (.array (← allocate) elements)

/-- A last key without a value takes what stands above the stack. -/
def makeHash (n : Nat) : MachineM Unit := do
  let sp ← sp
  let entries ← readEntries (sp - n) [] ((n + 1) / 2)
  setSp (sp - n)
  push (.hash (← allocate) entries)

def makeClosure (constant numFree : Nat) : MachineM Unit := do
  match ← need (← get).constants[constant]? with
  | .function proto =>
    let free ← popMany numFree
    push (.closure (← allocate) proto free)
  | v => fault (.notFunction v.kind)

def index (left sub : Value) : MachineM Unit := do push (← check (left.index sub))

/-! ### Instructions -/

/-- An instruction whose operands are `a` and `b`, as far as it has any. -/
def execute (op : Opcode) (a b : Nat) : MachineM Unit := do
  match op with
  | .constant => push (← need (← get).constants[a]?)
  | .add | .sub | .mul | .div =>
    let right ← pop
    let left ← pop
    push (← ofExcept (left.arithmetic op right))
  | .equal | .notEqual | .greaterThan =>
    let right ← pop
    let left ← pop
    push (.bool (← check (left.compare op right)))
  | .pop =>
    let v ← pop
    modify fun m => if m.callers.isEmpty then { m with lastPopped := v } else m
  | .pushTrue => push (.bool true)
  | .pushFalse => push (.bool false)
  | .pushNull => push .null
  | .bang => push (.bool (!(← pop).truthy))
  | .minus => push (← ofExcept (← pop).negate)
  | .jump => jumpTo a
  | .jumpNotTruthy => unless (← pop).truthy do jumpTo a
  | .setGlobal =>
    let v ← pop
    if (← get).globals.size ≤ a then throw .outOfRange
    modify fun m => { m with globals := m.globals.set a v }
  | .getGlobal => push (← need ((← get).globals.get? a))
  | .setLocal =>
    let v ← pop
    setSlot ((← get).frame.base + a) v
  | .getLocal => push (← slot ((← get).frame.base + a))
  | .getBuiltin =>
    match Builtin.all[a]? with
    | some b => push (.builtin b)
    | none => fault (.unknownBuiltin a)
  | .getFree => push (← need (← get).frame.free[a]?)
  | .currentClosure => push (← get).frame.closure
  | .array => makeArray a
  | .hash => makeHash a
  | .index =>
    let sub ← pop
    let left ← pop
    index left sub
  | .call => call a
  | .returnValue => leave (← pop)
  | .returnNull => leave .null
  | .closure => makeClosure a b

/-- The operands that the instruction at `ip` acts on, in the widths that the machine expects of
them; those that it does not have are zero. -/
def operandsAt? (code : Code) (op : Opcode) (ip : Nat) : Option (Nat × Nat) :=
  match op with
  | .constant | .jumpNotTruthy | .jump | .getGlobal | .setGlobal | .array | .hash => do
    return (← code.readOperand? (ip + 1 : Nat) 2, 0)
  | .getLocal | .setLocal | .getBuiltin | .getFree | .call => do
    return (← code.readOperand? (ip + 1 : Nat) 1, 0)
  | .closure => do
    return (← code.readOperand? (ip + 1 : Nat) 2, ← code.readOperand? (ip + 3 : Nat) 1)
  | _ => some (0, 0)

/-- How far the machine moves on before it acts. A jump or a return does not move on by itself. -/
def stride : Opcode → Nat
  | .constant | .jumpNotTruthy | .getGlobal | .setGlobal | .array | .hash => 3
  | .getLocal | .setLocal | .getBuiltin | .getFree | .call => 2
  | .closure => 4
  | .jump | .returnValue | .returnNull => 0
  | _ => 1

/-- Counts a step where steps are limited. -/
def countStep : MachineM Unit := do
  if let some max := (← get).limits.maxSteps then
    modify fun m => { m with steps := m.steps + 1 }
    if max < (← get).steps then fault (.stepLimit max)

def traceText (ip : Nat) (ins : Instruction) (sp : Int) : String :=
  s!"TRACE ip={Text.padded 4 ip} {ins.text} stack={sp}"

def opcodeOf (byte : UInt8) : MachineM Opcode :=
  match Opcode.ofByte? byte with
  | some op => pure op
  | none => throw (.malformed (.undefinedOpcode byte.toNat))

/-- Writes the instruction at `ip`, with its operands read as in a listing. -/
def trace (code : Code) (ip : Nat) : MachineM Unit := do
  let op ← opcodeOf (← need code[ip]?)
  write (.trace (traceText ip (code.instructionAt op ip) (← sp)))

/-- Executes the instruction at which the innermost call stands. -/
def step : MachineM Unit := do
  let ip := (← get).frame.ip
  let code := (← get).frame.code
  modify fun m => { m with ip }
  let byte ← need code[ip]?
  countStep
  if (← get).tracing then trace code ip
  let op ← opcodeOf byte
  let (a, b) ← need (operandsAt? code op ip)
  jumpTo (ip + stride op)
  execute op a b

end ClosureVM.MachineM
