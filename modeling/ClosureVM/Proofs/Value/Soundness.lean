import ClosureVM.Proofs.Code.Checking
import ClosureVM.Value.Builtin
import Mathlib.Algebra.Ring.Nat

/-! Values that a program can compute with, and that the operations lead from such values to such
values or to an error of the program. -/
namespace ClosureVM

/-- A value whose closures come from the pool and can be called, and whose integers are among
`N`. -/
inductive Value.Sound (pool : Array Value) (N : Int → Prop) : Value → Prop
  | null : Sound pool N .null
  | bool (b : Bool) : Sound pool N (.bool b)
  | int {n : Int} : N n → Sound pool N (.int n)
  | str (s : String) : Sound pool N (.str s)
  | array {id : Nat} {elements : List Value} :
    (∀ v ∈ elements, Sound pool N v) → Sound pool N (.array id elements)
  | hash {id : Nat} {entries : Entries} :
    (∀ e ∈ entries, Sound pool N e.2) → Sound pool N (.hash id entries)
  | closure {id : Nat} {proto : Prototype} {free : List Value} :
    .function proto ∈ pool → proto.Sound pool free.length → (∀ v ∈ free, Sound pool N v) →
      Sound pool N (.closure id proto free)
  | builtin (b : Builtin) : Sound pool N (.builtin b)

/-- The size of a string or an array is among `N`. -/
def Value.Measures (N : Int → Prop) : Value → Prop
  | .str s => N s.length
  | .array _ elements => N elements.length
  | _ => True

theorem Value.Measures.mono {N N' : Int → Prop} {v : Value} (h : v.Measures N)
    (hN : ∀ n, N n → N' n) : v.Measures N' := by
  cases v with
  | str s => exact hN _ h
  | array id elements => exact hN _ h
  | _ => trivial

namespace Fault

/-- Errors that a program makes: operands, arguments, keys or callees that do not fit, and
arithmetic. -/
def IsLanguage : Fault → Prop
  | negation _ | operandKinds .. | stringOperator _ | comparison .. | hashKey _ | indexing _
  | calling _ | lenArgument _ | arrayArgument .. | arity .. | integerOverflow _
  | divisionByZero => True
  | _ => False

/-- Errors of a program that needs more than it is given. -/
def IsResource : Fault → Prop
  | stackOverflow | frameOverflow _ | stepLimit _ => True
  | _ => False

instance : DecidablePred IsResource
  | stackOverflow | frameOverflow _ | stepLimit _ => .isTrue trivial
  | stackUnderflow | returnOutsideFunction | unknownBuiltin _ | badCode _ | negation _
  | operandKinds _ _ | stringOperator _ | integerOperator _ | comparison _ _ | hashKey _
  | indexing _ | calling _ | notFunction _ | lenArgument _ | arrayArgument _ _ | arity _ _
  | integerOverflow _ | divisionByZero => .isFalse id

end Fault

/-- What may stop a program whose integers are among `N`. Only beyond the words there are
overflows that cannot be put in words. -/
def Stop.IsOrdinary (N : Int → Prop) : Stop → Prop
  | .fault f => f.IsLanguage ∨ f.IsResource
  | .unwritable => ¬ ∀ n, N n → IsWord n
  | _ => False

theorem Value.Sound.mono {pool pool' : Array Value} {N : Int → Prop} {v : Value}
    (h : v.Sound pool N) (hp : Extends pool pool') : v.Sound pool' N := by
  induction h with
  | null => exact .null
  | bool b => exact .bool b
  | int hn => exact .int hn
  | str s => exact .str s
  | array _ ih => exact .array ih
  | hash _ ih => exact .hash ih
  | closure hmem hs _ ih => exact .closure (hp.mem hmem) (hs.mono hp) ih
  | builtin b => exact .builtin b

theorem Value.IsLiteral.sound {pool : Array Value} {N : Int → Prop} {v : Value} (h : v.IsLiteral)
    (hN : ∀ n, IsWord n → N n) : v.Sound pool N := by
  cases v with
  | int n => exact .int (hN n h)
  | str s => exact .str s
  | _ => exact absurd h id

/-- An operation that gives a result with the property `P`, or an ordinary stop. -/
def Ordinary {α : Type} (N : Int → Prop) (P : α → Prop) : Except Stop α → Prop
  | .ok a => P a
  | .error s => s.IsOrdinary N

theorem Ordinary.bind_pure {α β : Type} {N : Int → Prop} {P : α → Prop} {Q : β → Prop}
    {r : Except Stop α} {f : α → β} (h : Ordinary N P r) (hf : ∀ a, P a → Q (f a)) :
    Ordinary N Q (r >>= fun a => pure (f a)) := by
  cases r with
  | error s => exact h
  | ok a => exact hf a h

section Integers

variable {N : Int → Prop} {a b n : Int}

private theorem isWritable_of_le (h : n.natAbs ≤ 2 ^ 126) : Text.isWritable n = true := by
  have h₁ : (2 : Nat) ^ 126 < 10 ^ 38 := by decide
  have h₂ : (10 : Nat) ^ 38 ≤ 10 ^ Text.maxDigits :=
    Nat.pow_le_pow_right (by decide) (by decide)
  rw [Text.isWritable, Nat.pow_eq, decide_eq_true_eq]
  omega

theorem IsWord.natAbs_le (h : IsWord n) : n.natAbs ≤ 2 ^ 63 := by
  obtain ⟨h₁, h₂⟩ := h
  simp only [minInt, maxInt] at h₁ h₂
  omega

theorem checkWord_ordinary (h : (∀ n, N n → IsWord n) → n.natAbs ≤ 2 ^ 126) :
    Ordinary N IsWord (checkWord n) := by
  unfold checkWord
  by_cases hw : IsWord n
  · rw [if_pos hw]
    exact hw
  · rw [if_neg hw]
    cases hwr : Text.isWritable n with
    | true => exact .inl trivial
    | false =>
      intro hN
      rw [isWritable_of_le (h hN)] at hwr
      cases hwr

/-- The results of operations on words are words, or overflows that can be written. -/
theorem integerOperation_ordinary (ha : N a) (hb : N b) {op : Opcode}
    (hop : op ∈ [.add, .sub, .mul, .div]) : Ordinary N IsWord (integerOperation op a b) := by
  have hle (hN : ∀ n, N n → IsWord n) : a.natAbs ≤ 2 ^ 63 ∧ b.natAbs ≤ 2 ^ 63 :=
    ⟨(hN a ha).natAbs_le, (hN b hb).natAbs_le⟩
  simp only [List.mem_cons, List.not_mem_nil, or_false] at hop
  obtain rfl | rfl | rfl | rfl := hop
  · refine checkWord_ordinary fun hN => ?_
    have := hle hN
    omega
  · refine checkWord_ordinary fun hN => ?_
    have := hle hN
    omega
  · refine checkWord_ordinary fun hN => ?_
    have hmul := Nat.mul_le_mul (hle hN).1 (hle hN).2
    rwa [← Nat.pow_add, ← Int.natAbs_mul] at hmul
  · unfold integerOperation
    dsimp only
    by_cases hz : b = 0
    · rw [if_pos hz]
      exact .inl trivial
    · rw [if_neg hz]
      refine checkWord_ordinary fun hN => ?_
      have hdiv : (quotient a b).natAbs ≤ a.natAbs := by
        rw [quotient_eq_tdiv, Int.natAbs_tdiv]
        exact Nat.div_le_self ..
      have := hle hN
      omega

end Integers

section Operations

variable {pool : Array Value} {N : Int → Prop} {v a b : Value}

theorem Value.Sound.negate (h : v.Sound pool N) (hN : ∀ n, IsWord n → N n) :
    Ordinary N (Value.Sound pool N) v.negate := by
  cases h with
  | @int n hn =>
    have hc : Ordinary N IsWord (checkWord (-n)) := checkWord_ordinary fun hN => by
      have := (hN n hn).natAbs_le
      omega
    exact hc.bind_pure fun m hm => .int (hN m hm)
  | _ => exact .inl trivial

theorem Value.Sound.arithmetic (ha : a.Sound pool N) (hb : b.Sound pool N)
    (hN : ∀ n, IsWord n → N n) {op : Opcode} (hop : op ∈ [.add, .sub, .mul, .div]) :
    Ordinary N (Value.Sound pool N) (Value.arithmetic op a b) := by
  unfold Value.arithmetic
  split
  · rename_i m n
    cases ha with
    | int hm =>
    cases hb with
    | int hn =>
    exact (integerOperation_ordinary hm hn hop).bind_pure fun k hk => .int (hN k hk)
  · split
    · exact .str _
    · exact .inl trivial
  · exact .inl trivial

theorem Value.compare_ordinary (op : Opcode) (a b : Value) :
    Ordinary N (Value.Sound pool N) (((a.compare op b).map .bool).mapError .fault) := by
  unfold Value.compare
  split
  · split <;> exact Value.Sound.bool _
  · split
    · exact .inl trivial
    · exact Value.Sound.bool _
    · exact Value.Sound.bool _

theorem Value.Sound.getD {o : Option Value} (h : ∀ v ∈ o, v.Sound pool N) :
    (o.getD .null).Sound pool N := by
  cases o with
  | none => exact .null
  | some v => exact h v rfl

theorem Entries.mem_of_get? {entries : Entries} {k : Key} (h : entries.get? k = some v) :
    (k, v) ∈ entries := by
  obtain ⟨e, he, rfl⟩ := Option.map_eq_some_iff.mp h
  have hk := List.find?_some he
  rw [decide_eq_true_iff] at hk
  rw [← hk]
  exact List.mem_of_find?_eq_some he

theorem Value.Sound.index (ha : a.Sound pool N) (i : Value) :
    Ordinary N (Value.Sound pool N) ((a.index i).mapError .fault) := by
  cases ha with
  | @array id elements h =>
    cases i with
    | int n =>
      unfold Value.index
      dsimp only
      split
      · exact Value.Sound.getD fun v hv => h v (List.mem_of_getElem? hv)
      · exact .null
    | _ => exact .null
  | @hash id entries h =>
    refine Value.Sound.getD fun v hv => ?_
    obtain ⟨k, -, hk⟩ := Option.bind_eq_some_iff.mp hv
    exact h _ (Entries.mem_of_get? hk)
  | _ => exact .inl trivial

theorem Entries.mem_insert {entries : Entries} {k : Key} {e : Key × Value}
    (h : e ∈ entries.insert k v) : e = (k, v) ∨ e ∈ entries := by
  induction entries with
  | nil => exact .inl (List.mem_singleton.mp h)
  | cons f rest ih =>
    unfold Entries.insert at h
    split at h
    · obtain rfl | h := List.mem_cons.mp h
      · exact .inl rfl
      · exact .inr (List.mem_cons_of_mem _ h)
    · obtain rfl | h := List.mem_cons.mp h
      · exact .inr List.mem_cons_self
      · exact (ih h).imp_right (List.mem_cons_of_mem _)

theorem Value.hashKey_language {f : Fault} (h : v.hashKey = .error f) : f.IsLanguage := by
  unfold Value.hashKey at h
  split at h
  · cases h
  · cases h
    trivial

/-- What a builtin gives back is sound, or it refuses its arguments. -/
theorem Builtin.apply_sound (b : Builtin) (fresh : Nat) {args : List Value}
    (h : ∀ v ∈ args, v.Sound pool N) (hm : ∀ v ∈ args, v.Measures N) :
    Ordinary N (fun reply => reply.value.Sound pool N)
      ((b.apply fresh args).mapError .fault) := by
  have helements {id : Nat} {elements : List Value} (hv : .array id elements ∈ args) :
      ∀ v ∈ elements, v.Sound pool N := by
    cases h _ hv with
    | array h => exact h
  unfold Builtin.apply
  split
  · exact .int (hm _ List.mem_cons_self)
  · exact .int (hm _ List.mem_cons_self)
  · exact .inl trivial
  · exact .inl trivial
  · exact .null
  · exact Value.Sound.getD fun v hv =>
      helements List.mem_cons_self v (List.mem_of_mem_head? hv)
  · exact Value.Sound.getD fun v hv =>
      helements List.mem_cons_self v (List.mem_of_getLast? hv)
  · exact .null
  · exact .array fun v hv => helements List.mem_cons_self v (List.mem_cons_of_mem _ hv)
  · refine .array fun v hv => ?_
    obtain hv | hv := List.mem_append.mp hv
    · exact helements List.mem_cons_self v hv
    · exact h v (by simp [List.mem_singleton.mp hv])
  all_goals exact .inl trivial

end Operations

end ClosureVM
