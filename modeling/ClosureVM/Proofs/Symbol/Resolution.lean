import ClosureVM.Proofs.Symbol.Capture

/-! What looking for a name along a chain of tables finds and changes. -/
namespace ClosureVM

/-- Looks for a name along a chain, innermost table first, and captures on the way back. -/
def resolveAlong (name : String) : List Table → Option (Symbol × List Table)
  | [] => none
  | t :: outer =>
    match t.find? name with
    | some s => some (s, t :: outer)
    | none =>
      match resolveAlong name outer with
      | none => none
      | some (s, outer) =>
        if s.storage.isShared then some (s, t :: outer)
        else some ((t.capture s).1, (t.capture s).2 :: outer)

/-- The table has one capture more: `outer` has come to the end of the captured symbols, and the
name stands for that position. -/
structure Table.Gains (name : String) (outer : Symbol) (t t' : Table) : Prop where
  free : t'.free = t.free ++ [outer]
  stored : t'.find? name = some ⟨name, .free, t.free.length⟩
  others : ∀ other, other ≠ name → t'.find? other = t.find? other
  numDefinitions : t'.numDefinitions = t.numDefinitions

/-- Each of the first `k` tables has captured what the next table outward now holds for the name,
and no other table is changed. -/
structure CapturedBelow (name : String) (k : Nat) (ts ts' : List Table) : Prop where
  gains : ∀ j < k, ∃ t t' next s, ts[j]? = some t ∧ ts'[j]? = some t' ∧ ts'[j + 1]? = some next ∧
    next.find? name = some s ∧ t.Gains name s t'
  others : ts'.drop k = ts.drop k

namespace FoundAt

variable {name : String} {t : Table} {outer ts : List Table} {k : Nat} {s : Symbol}

end FoundAt

theorem Table.capture_ne (t : Table) (s : Symbol) : (t.capture s).2 ≠ t := by
  intro h
  have hfree := congrArg (fun t : Table => t.free.length) h
  simp [Table.capture] at hfree

theorem CapturedBelow.cons {name : String} {k : Nat} {t t' next : Table} {s : Symbol}
    {ts ts' : List Table} (h : CapturedBelow name k ts ts') (hn : ts'.head? = some next)
    (hs : next.find? name = some s) (ht : t.Gains name s t') :
    CapturedBelow name (k + 1) (t :: ts) (t' :: ts') where
  gains j hj := by
    cases j with
    | zero =>
      rw [List.head?_eq_getElem?] at hn
      exact ⟨t, t', next, s, rfl, rfl, hn, hs, ht⟩
    | succ j => exact h.gains j (Nat.lt_of_succ_lt_succ hj)
  others := h.others

end ClosureVM
