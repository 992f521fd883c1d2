import ClosureVM.SignedIndex
import ClosureVM.Value.Basic

/-! A fixed number of places for values, all `null` until they are written. -/
namespace ClosureVM

/-- Places from `cells.size` on have never been written. -/
structure Slots where
  size : Nat
  cells : Array Value := #[]
  deriving Inhabited

namespace Slots

def ofList (values : List Value) : Slots := ⟨values.length, values.toArray⟩

def get? (s : Slots) (i : Nat) : Option Value :=
  if i < s.size then some (s.cells.getD i .null) else none

/-- Writing where there is no place changes nothing. -/
def set (s : Slots) (i : Nat) (v : Value) : Slots :=
  if i < s.size then { s with cells := (s.cells.rightpad (i + 1) .null).setIfInBounds i v } else s

@[simp] theorem size_set (s : Slots) (i : Nat) (v : Value) : (s.set i v).size = s.size := by
  unfold set
  split <;> rfl

theorem get?_set (s : Slots) (i j : Nat) (v : Value) :
    (s.set i v).get? j = if j = i ∧ i < s.size then some v else s.get? j := by
  unfold set get?
  split
  · rename_i hi
    by_cases hj : j = i
    · subst j
      simp [hi, Array.getD_eq_getD_getElem?, Array.rightpad]
      omega
    · by_cases hs : j < s.size
      · simp only [hs, hj, if_true, false_and, if_false, Option.some.injEq]
        simp only [Array.getD_eq_getD_getElem?, Array.rightpad]
        rw [Array.getElem?_setIfInBounds_ne (by omega), Array.getElem?_append]
        split
        · rfl
        · rename_i hc
          rw [Array.getElem?_replicate, Array.getElem?_eq_none (by omega)]
          split <;> rfl
      · simp [hs, hj]
  · rename_i hi
    simp [hi]

/-- Reads the place that a signed index names. -/
def at? (s : Slots) (i : Int) : Option Value := (place? s.size i).bind s.get?

/-- The values from place `lo` up to place `hi`, without the latter. -/
def between (s : Slots) (lo hi : Nat) : List Value :=
  (List.range' lo (hi - lo)).map fun i => s.cells.getD i .null

/-- The values between two signed indices; there are none if the first is not below the
second. -/
def slice (s : Slots) (lo hi : Int) : List Value := s.between (bound s.size lo) (bound s.size hi)

/-- The first `n` values, or all. -/
def take (s : Slots) (n : Nat) : List Value := s.between 0 (min n s.size)

end Slots
end ClosureVM
