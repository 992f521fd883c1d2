import ClosureVM.Proofs.Value.Soundness

/-! The integers in a value, at any depth. The operations lead from words to words. -/
namespace ClosureVM

namespace Value

/-- The integer `n` is the value, or is in an element, a key, an entry or a captured value of it. -/
inductive Mentions (n : Int) : Value → Prop
  | self : Mentions n (.int n)
  | element {id : Nat} {elements : List Value} {v : Value} :
    v ∈ elements → Mentions n v → Mentions n (.array id elements)
  | key {id : Nat} {entries : Entries} {v : Value} :
    (.int n, v) ∈ entries → Mentions n (.hash id entries)
  | entry {id : Nat} {entries : Entries} {k : Key} {v : Value} :
    (k, v) ∈ entries → Mentions n v → Mentions n (.hash id entries)
  | captured {id : Nat} {proto : Prototype} {free : List Value} {v : Value} :
    v ∈ free → Mentions n v → Mentions n (.closure id proto free)

/-- All integers in a value are words. -/
def Words (v : Value) : Prop := ∀ n, v.Mentions n → IsWord n

variable {v : Value}

theorem words_null : null.Words := fun _ h => by cases h

theorem words_bool (b : Bool) : (bool b).Words := fun _ h => by cases h

theorem words_str (s : String) : (str s).Words := fun _ h => by cases h

theorem words_function (proto : Prototype) : (function proto).Words := fun _ h => by cases h

theorem words_builtin (b : Builtin) : (builtin b).Words := fun _ h => by cases h

theorem words_int {n : Int} (hn : IsWord n) : (int n).Words := by
  intro k hk
  cases hk
  exact hn

theorem words_array {id : Nat} {elements : List Value} (h : ∀ v ∈ elements, v.Words) :
    (array id elements).Words := by
  intro n hn
  cases hn with
  | element hv hn => exact h _ hv n hn

theorem words_hash {id : Nat} {entries : Entries}
    (h : ∀ e ∈ entries, e.1.toValue.Words ∧ e.2.Words) : (hash id entries).Words := by
  intro n hn
  cases hn with
  | key he => exact (h _ he).1 n .self
  | entry he hn => exact (h _ he).2 n hn

theorem words_closure {id : Nat} {proto : Prototype} {free : List Value}
    (h : ∀ v ∈ free, v.Words) : (closure id proto free).Words := by
  intro n hn
  cases hn with
  | captured hv hn => exact h _ hv n hn

theorem Words.elements {id : Nat} {elements : List Value} (h : (array id elements).Words) :
    ∀ v ∈ elements, v.Words :=
  fun _ hv n hn => h n (.element hv hn)

theorem Words.free {id : Nat} {proto : Prototype} {free : List Value}
    (h : (closure id proto free).Words) : ∀ v ∈ free, v.Words :=
  fun _ hv n hn => h n (.captured hv hn)

theorem Words.getD {o : Option Value} (h : ∀ v ∈ o, v.Words) : (o.getD .null).Words := by
  cases o with
  | none => exact words_null
  | some v => exact h v rfl

theorem IsLiteral.words (h : v.IsLiteral) : v.Words := by
  cases v with
  | int n => exact words_int h
  | str s => exact words_str s
  | _ => exact absurd h id

end Value

theorem isWord_of_checkWord {n k : Int} (h : checkWord n = .ok k) : IsWord k := by
  unfold checkWord at h
  split at h
  · cases h
    assumption
  · split at h <;> cases h

private theorem isWord_of_integerOperation {op : Opcode} {a b k : Int}
    (h : integerOperation op a b = .ok k) : IsWord k := by
  unfold integerOperation at h
  split at h
  · exact isWord_of_checkWord h
  · exact isWord_of_checkWord h
  · exact isWord_of_checkWord h
  · split at h
    · cases h
    · exact isWord_of_checkWord h
  · cases h

namespace Value

variable {v a b r : Value}

theorem words_negate (h : v.negate = .ok r) : r.Words := by
  unfold negate at h
  split at h
  · rename_i n
    cases hc : checkWord (-n) with
    | ok k =>
      rw [hc] at h
      cases h
      exact words_int (isWord_of_checkWord hc)
    | error s =>
      rw [hc] at h
      cases h
  · cases h

theorem words_arithmetic {op : Opcode} (h : arithmetic op a b = .ok r) : r.Words := by
  unfold arithmetic at h
  split at h
  · rename_i m n
    cases hc : integerOperation op m n with
    | ok k =>
      rw [hc] at h
      cases h
      exact words_int (isWord_of_integerOperation hc)
    | error s =>
      rw [hc] at h
      cases h
  · split at h
    · cases h
      exact words_str _
    · cases h
  · cases h

theorem Words.index (ha : a.Words) {i : Value} (h : a.index i = .ok r) : r.Words := by
  unfold Value.index at h
  split at h
  · split at h <;> cases h
    · exact .getD fun v hv => ha.elements v (List.mem_of_getElem? hv)
    · exact words_null
  · cases h
    exact words_null
  · cases h
    refine .getD fun v hv => ?_
    obtain ⟨k, -, hk⟩ := Option.bind_eq_some_iff.mp hv
    exact fun n hn => ha n (.entry (Entries.mem_of_get? hk) hn)
  · cases h

theorem toValue_of_hashKey {k : Key} (h : v.hashKey = .ok k) : k.toValue = v := by
  cases v with
  | int n | bool b | str s =>
    cases h
    rfl
  | _ => cases h

end Value

/-- Only the sizes of its arguments bring new integers into what a builtin gives back. -/
theorem Builtin.apply_words (b : Builtin) {fresh : Nat} {args : List Value} {reply : Reply}
    (ha : ∀ v ∈ args, v.Words) (hm : ∀ v ∈ args, v.Measures IsWord)
    (h : b.apply fresh args = .ok reply) : reply.value.Words := by
  have helements {id : Nat} {elements : List Value} (hv : .array id elements ∈ args) :
      ∀ v ∈ elements, v.Words := (ha _ hv).elements
  unfold Builtin.apply at h
  split at h <;> cases h
  · exact Value.words_int (hm _ List.mem_cons_self)
  · exact Value.words_int (hm _ List.mem_cons_self)
  · exact Value.words_null
  · exact .getD fun v hv => helements List.mem_cons_self v (List.mem_of_mem_head? hv)
  · exact .getD fun v hv => helements List.mem_cons_self v (List.mem_of_getLast? hv)
  · exact Value.words_null
  · exact Value.words_array fun v hv => helements List.mem_cons_self v (List.mem_cons_of_mem _ hv)
  · refine Value.words_array fun v hv => ?_
    obtain hv | hv := List.mem_append.mp hv
    · exact helements List.mem_cons_self v hv
    · exact ha v (by simp [List.mem_singleton.mp hv])

end ClosureVM
