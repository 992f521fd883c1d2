import ClosureVM.Value.Fault

/-! The operators on values. -/
namespace ClosureVM

def minInt : Int := -0x8000000000000000
def maxInt : Int := 0x7fffffffffffffff

/-- Program integers are the signed words of 64 bits. -/
def IsWord (n : Int) : Prop := minInt ≤ n ∧ n ≤ maxInt

instance (n : Int) : Decidable (IsWord n) := inferInstanceAs (Decidable (_ ∧ _))

/-- An overflow can be reported only if its value can be written. -/
def checkWord (n : Int) : Except Stop Int :=
  if IsWord n then .ok n
  else if Text.isWritable n then .error (.fault (.integerOverflow n))
  else .error .unwritable

/-- The quotient of the absolute values, negative if just one of the signs is. -/
def quotient (a b : Int) : Int :=
  let q : Int := (a.natAbs / b.natAbs : Nat)
  if decide (a < 0) != decide (b < 0) then -q else q

/-- So the fraction is dropped. -/
theorem quotient_eq_tdiv (a b : Int) : quotient a b = a.tdiv b := by
  have hpos (n : Nat) : decide (Int.ofNat n < 0) = false :=
    decide_eq_false (Int.not_lt.mpr (Int.natCast_nonneg n))
  have hneg (n : Nat) : decide (Int.negSucc n < 0) = true := decide_eq_true (Int.negSucc_lt_zero n)
  unfold quotient
  cases a with
  | ofNat m =>
    cases b with
    | ofNat n => simp only [hpos]; rfl
    | negSucc n => simp only [hpos, hneg]; rfl
  | negSucc m =>
    cases b with
    | ofNat n => simp only [hpos, hneg]; rfl
    | negSucc n => simp only [hneg]; rfl

def integerOperation (op : Opcode) (a b : Int) : Except Stop Int :=
  match op with
  | .add => checkWord (a + b)
  | .sub => checkWord (a - b)
  | .mul => checkWord (a * b)
  | .div => if b = 0 then .error (.fault .divisionByZero) else checkWord (quotient a b)
  | op => .error (.fault (.integerOperator op))

namespace Value

def negate : Value → Except Stop Value
  | .int n => return .int (← checkWord (-n))
  | v => .error (.fault (.negation v.kind))

/-- Arithmetic on two integers, or two strings joined. -/
def arithmetic (op : Opcode) (a b : Value) : Except Stop Value :=
  match a, b with
  | .int m, .int n => return .int (← integerOperation op m n)
  | .str s, .str t =>
    if op = .add then .ok (.str (s ++ t)) else .error (.fault (.stringOperator op))
  | a, b => .error (.fault (.operandKinds a.kind b.kind))

/-- Integers are compared as such. Other values can be tested for equality only. -/
def compare (op : Opcode) (a b : Value) : Except Fault Bool :=
  match a, b with
  | .int m, .int n =>
    match op with
    | .equal => .ok (m == n)
    | .notEqual => .ok (m != n)
    | _ => .ok (m > n)
  | a, b =>
    match op with
    | .greaterThan => .error (.comparison a.kind b.kind)
    | .equal => .ok (a.equals b)
    | _ => .ok (!a.equals b)

/-- The comparison of integers agrees with the equality of values. -/
theorem compare_equal (a b : Value) : a.compare .equal b = .ok (a.equals b) := by
  cases a <;> cases b <;> rfl

theorem compare_notEqual (a b : Value) : a.compare .notEqual b = .ok (!a.equals b) := by
  cases a <;> cases b <;> rfl

def hashKey (v : Value) : Except Fault Key :=
  match v.key? with
  | some k => .ok k
  | none => .error (.hashKey v.kind)

/-- What is absent from an array or a hash is `null`. -/
def index (a i : Value) : Except Fault Value :=
  match a, i with
  | .array _ elements, .int n =>
    .ok (if 0 ≤ n then elements[n.toNat]?.getD .null else .null)
  | .array .., _ => .ok .null
  | .hash _ entries, i => .ok ((i.key?.bind (Entries.get? entries)).getD .null)
  | a, _ => .error (.indexing a.kind)

end Value
end ClosureVM
