/-! Signed positions in a sequence: a negative one counts from the end. -/
namespace ClosureVM

/-- Where `i` points, counted from the start. -/
def fromStart (size : Nat) (i : Int) : Int := if i < 0 then i + size else i

/-- The element that `i` names, if there is one. -/
def place? (size : Nat) (i : Int) : Option Nat :=
  let j := fromStart size i
  if 0 ≤ j ∧ j < size then some j.toNat else none

/-- The end of a range that `i` names; what lies outside is brought to the nearer end. -/
def bound (size : Nat) (i : Int) : Nat := min (fromStart size i).toNat size

theorem place?_natCast (size i : Nat) : place? size i = if i < size then some i else none := by
  have h : ¬ (i : Int) < 0 := by omega
  simp [place?, fromStart, h]

theorem bound_natCast (size i : Nat) : bound size i = min i size := by
  have h : ¬ (i : Int) < 0 := by omega
  simp [bound, fromStart, h]

end ClosureVM
