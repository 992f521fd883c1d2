import ClosureVM.Machine.Slots
import Mathlib.Data.List.Basic

/-! Places whose lower end carries the values of a list. -/
namespace ClosureVM.Slots

/-- The lowest places hold the given values; what lies above is left open. -/
def Carries (s : Slots) (values : List Value) : Prop :=
  ∀ i v, values[i]? = some v → s.get? i = some v

theorem get?_eq_some {s : Slots} {i : Nat} {v : Value} (h : s.get? i = some v) :
    i < s.size ∧ s.cells.getD i .null = v := by
  unfold get? at h
  split at h
  · rename_i hi
    exact ⟨hi, Option.some.inj h⟩
  · cases h

namespace Carries

variable {s : Slots} {values : List Value}

theorem nil (s : Slots) : s.Carries [] := by
  intro i v hv
  cases hv

theorem length_le (h : s.Carries values) : values.length ≤ s.size := by
  cases hn : values.length with
  | zero => omega
  | succ n =>
    have hi : n < values.length := by omega
    have := (get?_eq_some (h n values[n] (List.getElem?_eq_getElem hi))).1
    omega

theorem of_append {more : List Value} (h : s.Carries (values ++ more)) : s.Carries values := by
  intro i v hv
  have hi : i < values.length := (List.getElem?_eq_some_iff.mp hv).1
  exact h i v (by rw [List.getElem?_append_left hi, hv])

theorem set (h : s.Carries values) {i : Nat} (hi : i < values.length) (v : Value) :
    (s.set i v).Carries (values.set i v) := by
  have hs := h.length_le
  intro j w hw
  rw [get?_set]
  by_cases hj : j = i
  · subst j
    rw [List.getElem?_set_self hi] at hw
    rw [if_pos ⟨rfl, by omega⟩, hw]
  · rw [List.getElem?_set_ne (Ne.symm hj)] at hw
    rw [if_neg (by tauto), h j w hw]

theorem push (h : s.Carries values) (hs : values.length < s.size) (v : Value) :
    (s.set values.length v).Carries (values ++ [v]) := by
  intro j w hw
  rw [get?_set]
  by_cases hj : j = values.length
  · subst j
    rw [List.getElem?_concat_length] at hw
    rw [if_pos ⟨rfl, hs⟩, hw]
  · have hl : j < values.length := by
      have := (List.getElem?_eq_some_iff.mp hw).1
      simp only [List.length_append, List.length_singleton] at this
      omega
    rw [List.getElem?_append_left hl] at hw
    rw [if_neg (by tauto), h j w hw]

theorem at? (h : s.Carries values) {i : Nat} {v : Value} (hv : values[i]? = some v) :
    s.at? i = some v := by
  have hg := h i v hv
  simp [Slots.at?, place?_natCast, (get?_eq_some hg).1, hg]

theorem between (h : s.Carries values) {lo hi : Nat} (hl : lo ≤ hi) (hh : hi ≤ values.length) :
    s.between lo hi = (values.take hi).drop lo := by
  apply List.ext_getElem?
  intro i
  unfold Slots.between
  rw [List.getElem?_map, List.getElem?_drop, List.getElem?_take]
  by_cases hi' : i < hi - lo
  · have hv : lo + i < values.length := by omega
    have hg := get?_eq_some (h (lo + i) values[lo + i] (List.getElem?_eq_getElem hv))
    rw [List.getElem?_range' hi', if_pos (by omega), List.getElem?_eq_getElem hv]
    simp only [Option.map_some, Nat.one_mul, hg.2]
  · rw [List.getElem?_eq_none (by simpa using hi'), if_neg (by omega)]
    rfl

theorem slice (h : s.Carries values) {n : Nat} (hn : n ≤ values.length) :
    s.slice ((values.length : Int) - n) values.length = values.drop (values.length - n) := by
  have hs := h.length_le
  have he : ((values.length : Int) - n) = ((values.length - n : Nat) : Int) := by omega
  rw [Slots.slice, he, bound_natCast, bound_natCast, Nat.min_eq_left (by omega),
    Nat.min_eq_left hs, h.between (by omega) (Nat.le_refl _), List.take_length]

end Carries
end ClosureVM.Slots
