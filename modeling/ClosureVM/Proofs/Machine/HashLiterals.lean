import ClosureVM.Proofs.Machine.Alike
import ClosureVM.Proofs.Machine.Lockstep
import ClosureVM.Proofs.Value.Words

/-! Hashes that are made from pairs of a key and a value. Their keys are the same iff they are equal
as values: of equal keys the first gives the place of the entry, the last its value. -/
namespace ClosureVM

/-- The kinds of values that can be keys. -/
def Value.Hashable (v : Value) : Prop := v.kind ∈ [Kind.integer, .boolean, .string]

instance (v : Value) : Decidable v.Hashable := inferInstanceAs (Decidable (_ ∈ _))

namespace HashLiteral

/-- Keys and values in turn, as they come onto the stack. -/
def operands (pairs : List (Value × Value)) : List Value := pairs.flatMap fun p => [p.1, p.2]

/-- The first pair whose key can be none. -/
def unhashable? (pairs : List (Value × Value)) : Option (Value × Value) :=
  pairs.find? fun p => ¬ p.1.Hashable

/-- The last pair with a key equal to `k`. -/
def last? (pairs : List (Value × Value)) (k : Value) : Option (Value × Value) :=
  pairs.reverse.find? fun p => p.1.equals k

/-- The pairs without those whose key is equal to an earlier one. -/
def firsts : List (Value × Value) → List (Value × Value)
  | [] => []
  | p :: rest => p :: (firsts rest).filter fun q => !p.1.equals q.1

end HashLiteral

namespace Value

variable {v : Value} {k : Key}

theorem hashable_iff : v.Hashable ↔ ∃ k, v.key? = some k := by
  cases v <;> simp [Hashable, kind, key?]

theorem key?_of_not_hashable (h : ¬ v.Hashable) : v.key? = none :=
  Option.eq_none_iff_forall_ne_some.mpr fun k hk => h (hashable_iff.mpr ⟨k, hk⟩)

theorem toValue_of_key? (h : v.key? = some k) : k.toValue = v := by
  apply toValue_of_hashKey
  rw [hashKey, h]

/-- A value is equal to a key iff it is that key; it is not enough that they print alike. -/
theorem equals_toValue (v : Value) (k : Key) : v.equals k.toValue = true ↔ v.key? = some k := by
  cases v <;> cases k <;> simp [equals, key?, Key.toValue]

/-- What is equal to a value that can be a key is that value. -/
theorem eq_of_equals {w : Value} (hw : w.Hashable) (h : v.equals w = true) : v = w := by
  obtain ⟨k, hk⟩ := hashable_iff.mp hw
  rw [← toValue_of_key? hk] at h ⊢
  exact (toValue_of_key? ((equals_toValue v k).mp h)).symm

private theorem kind_of_equals {w : Value} (h : v.equals w = true) : v.kind = w.kind := by
  cases v <;> cases w <;> simp_all [equals, kind]

private theorem equals_self (h : v.Hashable) : v.equals v = true := by
  obtain ⟨k, hk⟩ := hashable_iff.mp h
  have hself := (equals_toValue v k).mpr hk
  rwa [toValue_of_key? hk] at hself

end Value

namespace HashLiteral

variable {pairs : List (Value × Value)} {p q : Value × Value} {k : Value}

theorem operands_cons (p : Value × Value) (pairs : List (Value × Value)) :
    operands (p :: pairs) = p.1 :: p.2 :: operands pairs := rfl

theorem length_operands (pairs : List (Value × Value)) :
    (operands pairs).length = 2 * pairs.length := by
  induction pairs with
  | nil => rfl
  | cons p rest ih =>
    rw [operands_cons, List.length_cons, List.length_cons, List.length_cons, ih]
    omega

private theorem firsts_concat (pairs : List (Value × Value)) (p : Value × Value) :
    firsts (pairs ++ [p]) =
      firsts pairs ++ if pairs.any (fun q => q.1.equals p.1) then [] else [p] := by
  induction pairs with
  | nil => simp [firsts]
  | cons q rest ih =>
    rw [List.cons_append, firsts, ih, List.filter_append, firsts, List.cons_append]
    cases hq : q.1.equals p.1 <;> cases hr : rest.any (fun q => q.1.equals p.1) <;>
      simp [hq, hr]

private theorem last?_concat (pairs : List (Value × Value)) (p : Value × Value) (k : Value) :
    last? (pairs ++ [p]) k = if p.1.equals k then some p else last? pairs k := by
  simp only [last?, List.reverse_append, List.reverse_singleton, List.singleton_append,
    List.find?_cons]
  cases p.1.equals k <;> rfl

theorem isSome_last? : (last? pairs k).isSome = pairs.any fun q => q.1.equals k := by
  rw [Bool.eq_iff_iff, last?, List.find?_isSome, List.any_eq_true]
  simp

private theorem mem_of_firsts (h : p ∈ firsts pairs) : p ∈ pairs := by
  induction pairs with
  | nil => cases h
  | cons q rest ih =>
    obtain rfl | h := List.mem_cons.mp h
    · exact List.mem_cons_self
    · exact List.mem_cons_of_mem _ (ih (List.mem_filter.mp h).1)

/-- The last pair with the key of a pair has that very key. -/
theorem last?_of_mem (h : p ∈ pairs) (hp : p.1.Hashable) :
    ∃ v, last? pairs p.1 = some (p.1, v) := by
  have hsome : (last? pairs p.1).isSome = true := by
    rw [isSome_last?, List.any_eq_true]
    exact ⟨p, h, Value.equals_self hp⟩
  obtain ⟨q, hq⟩ := Option.isSome_iff_exists.mp hsome
  have hfind : pairs.reverse.find? (fun q => q.1.equals p.1) = some q := hq
  have heq : q.1.equals p.1 = true := by simpa using List.find?_some hfind
  have hkey : q.1 = p.1 := Value.eq_of_equals hp heq
  exact ⟨q.2, by rw [hq, ← hkey]⟩

/-- What cannot be a key is equal to no key. -/
theorem last?_of_not_hashable (h : ∀ p ∈ pairs, p.1.Hashable) (hk : ¬ k.Hashable) :
    last? pairs k = none := by
  rw [last?, List.find?_eq_none]
  intro p hp heq
  have hkey := h p (List.mem_reverse.mp hp)
  rw [Value.Hashable, Value.kind_of_equals heq] at hkey
  exact hk hkey

end HashLiteral

open HashLiteral

namespace Entries

variable {entries : Entries} {pairs : List (Value × Value)}

theorem keys_insert (entries : Entries) (k : Key) (v : Value) :
    (entries.insert k v).map (·.1) =
      if k ∈ entries.map (·.1) then entries.map (·.1) else entries.map (·.1) ++ [k] := by
  induction entries with
  | nil => simp [Entries.insert]
  | cons e rest ih =>
    rw [Entries.insert]
    by_cases he : e.1 = k
    · simp [he]
    · by_cases hk : k ∈ rest.map (·.1)
      · rw [if_pos hk] at ih
        simp [he, hk, ih]
      · rw [if_neg hk] at ih
        simp [he, hk, ih, Ne.symm he]

private theorem isSome_get? (entries : Entries) (k : Key) :
    (entries.get? k).isSome = true ↔ k ∈ entries.map (·.1) := by
  rw [Entries.get?, Option.isSome_map, List.find?_isSome, List.mem_map]
  simp only [decide_eq_true_eq]

private theorem get?_of_mem (h : (entries.map (·.1)).Nodup) {e : Key × Value} (he : e ∈ entries) :
    entries.get? e.1 = some e.2 := by
  induction entries with
  | nil => cases he
  | cons f rest ih =>
    rw [List.map_cons, List.nodup_cons] at h
    obtain rfl | he := List.mem_cons.mp he
    · simp [Entries.get?]
    · have hne : f.1 ≠ e.1 := fun heq => h.1 (heq ▸ List.mem_map_of_mem he)
      have hrest := ih h.2 he
      simpa [Entries.get?, hne] using hrest

/-- The entries for pairs: their keys in the order in which they first came, and for every key the
value that came last. -/
structure Collects (entries : Entries) (pairs : List (Value × Value)) : Prop where
  nodup : (entries.map (·.1)).Nodup
  keys : entries.map (·.1.toValue) = (firsts pairs).map (·.1)
  get? : ∀ k : Key, entries.get? k = (last? pairs k.toValue).map (·.2)

namespace Collects

theorem nil : Collects [] [] := ⟨List.nodup_nil, rfl, fun _ => rfl⟩

/-- A further pair is one insertion. -/
theorem insert (h : entries.Collects pairs) {k : Key} {p : Value × Value}
    (hk : p.1.key? = some k) : (entries.insert k p.2).Collects (pairs ++ [p]) := by
  have hp : k.toValue = p.1 := Value.toValue_of_key? hk
  have hmem : k ∈ entries.map (·.1) ↔ pairs.any (fun q => q.1.equals p.1) = true := by
    rw [← isSome_get?, h.get?, Option.isSome_map, isSome_last?, hp]
  refine ⟨?_, ?_, fun l => ?_⟩
  · rw [keys_insert]
    split
    · exact h.nodup
    · rename_i hnew
      exact List.nodup_append.mpr ⟨h.nodup, List.pairwise_singleton _ k, by
        rintro l hl _ hl' rfl
        exact hnew (List.mem_singleton.mp hl' ▸ hl)⟩
  · have hkeys := congrArg (List.map Key.toValue) (keys_insert entries k p.2)
    have hold : (entries.map (·.1)).map Key.toValue = (firsts pairs).map (·.1) := by
      rw [List.map_map]
      exact h.keys
    rw [List.map_map] at hkeys
    rw [firsts_concat, List.map_append]
    by_cases hin : k ∈ entries.map (·.1)
    · rw [if_pos hin, hold] at hkeys
      rw [if_pos (hmem.mp hin), List.map_nil, List.append_nil]
      exact hkeys
    · rw [if_neg hin, List.map_append, hold] at hkeys
      rw [if_neg (fun hany => hin (hmem.mpr hany)), List.map_singleton, ← hp]
      exact hkeys
  · rw [get?_insert, last?_concat, h.get?]
    by_cases hl : l = k
    · have heq : p.1.equals l.toValue = true := (Value.equals_toValue _ _).mpr (hl ▸ hk)
      rw [if_pos hl, if_pos heq, Option.map_some]
    · have hne : ¬ p.1.equals l.toValue = true := fun heq => hl
        (Option.some.inj (((Value.equals_toValue _ _).mp heq).symm.trans hk))
      rw [if_neg hl, if_neg hne]

/-- Every entry is the last pair with its key. -/
theorem entries_eq (h : entries.Collects pairs) (hp : ∀ p ∈ pairs, p.1.Hashable) :
    entries.map (fun e => (e.1.toValue, e.2)) =
      (firsts pairs).map fun p => (last? pairs p.1).getD p := by
  let found (v : Value) : Value × Value := (v, ((last? pairs v).map (·.2)).getD .null)
  have hentry : ∀ e ∈ entries, (e.1.toValue, e.2) = found e.1.toValue := by
    intro e he
    have hget := get?_of_mem h.nodup he
    rw [h.get?] at hget
    simp only [found, hget, Option.getD_some]
  have hfirst : ∀ p ∈ firsts pairs, found p.1 = (last? pairs p.1).getD p := by
    intro p hmem
    have hpair := mem_of_firsts hmem
    obtain ⟨v, hv⟩ := last?_of_mem hpair (hp p hpair)
    simp only [found, hv, Option.map_some, Option.getD_some]
  calc entries.map (fun e => (e.1.toValue, e.2))
      = (entries.map (·.1.toValue)).map found := by
        rw [List.map_map]
        exact List.map_congr_left hentry
    _ = ((firsts pairs).map (·.1)).map found := by rw [h.keys]
    _ = (firsts pairs).map fun p => (last? pairs p.1).getD p := by
        rw [List.map_map]
        exact List.map_congr_left hfirst

/-- Looking up any value finds the last pair with an equal key. -/
theorem index (h : entries.Collects pairs) (hp : ∀ p ∈ pairs, p.1.Hashable) (id : Nat)
    (k : Value) :
    (Value.hash id entries).index k = .ok (((last? pairs k).map (·.2)).getD .null) := by
  by_cases hk : k.Hashable
  · obtain ⟨key, hkey⟩ := Value.hashable_iff.mp hk
    have hget := h.get? key
    rw [Value.toValue_of_key? hkey] at hget
    simp [Value.index, hkey, hget]
  · have hkey := Value.key?_of_not_hashable hk
    simp [Value.index, hkey, last?_of_not_hashable hp hk]

end Collects

/-- Pairs are collected up to the first key that can be none. -/
theorem ofValues_of_unhashable? {p : Value × Value} (h : unhashable? pairs = some p)
    (entries : Entries) :
    Entries.ofValues entries (operands pairs) = .error (.hashKey p.1.kind) := by
  induction pairs generalizing entries with
  | nil => cases h
  | cons q rest ih =>
    rw [unhashable?, List.find?_cons] at h
    rw [operands_cons, Entries.ofValues]
    by_cases hq : q.1.Hashable
    · obtain ⟨k, hk⟩ := Value.hashable_iff.mp hq
      rw [Value.hashKey, hk]
      exact ih (by simpa [unhashable?, hq] using h) _
    · have hqp : q = p := by simpa [hq] using h
      rw [Value.hashKey, Value.key?_of_not_hashable hq, ← hqp]

/-- Where all keys can be keys, all pairs are collected behind those that already are. -/
theorem ofValues_collects {done : List (Value × Value)} (h : entries.Collects done)
    (hp : ∀ p ∈ pairs, p.1.Hashable) :
    ∃ result, Entries.ofValues entries (operands pairs) = .ok result ∧
      result.Collects (done ++ pairs) := by
  induction pairs generalizing entries done with
  | nil => exact ⟨entries, rfl, by simpa using h⟩
  | cons p rest ih =>
    obtain ⟨hhead, hrest⟩ := List.forall_mem_cons.mp hp
    obtain ⟨k, hk⟩ := Value.hashable_iff.mp hhead
    obtain ⟨result, hresult, hcollects⟩ := ih (h.insert hk) hrest
    refine ⟨result, ?_, by simpa using hcollects⟩
    rw [operands_cons, Entries.ofValues, Value.hashKey, hk]
    exact hresult

end Entries

private theorem Slots.carries_ofList (values : List Value) :
    (Slots.ofList values).Carries values := by
  intro i v hv
  obtain ⟨hi, rfl⟩ := List.getElem?_eq_some_iff.mp hv
  simp [Slots.ofList, Slots.get?, hi]

namespace Machine

/-- The stack has its size, and the values are what is on it. -/
structure Stacked (m : Machine) (values : List Value) : Prop where
  carries : m.stack.Carries values
  sp : m.sp = values.length
  size : m.stack.size = m.limits.stackSize.toNat

namespace Stacked

variable {m : Machine} {values below : List Value} {v : Value}

theorem push (h : m.Stacked values) (hroom : values.length < m.stack.size) (v : Value) :
    ∃ m', MachineM.push v m = .ok () m' ∧ m'.Stacked (values ++ [v]) := by
  have hlimit : ¬ m.limits.stackSize ≤ m.sp := by
    rw [h.sp]
    have := h.size
    omega
  refine ⟨_, MachineM.push_of_lt h.sp hroom hlimit v, h.carries.push hroom v, ?_, ?_⟩
  · rw [List.length_append, List.length_singleton]
  · rw [Slots.size_set, h.size]

private theorem push_full (h : m.Stacked values) (hfull : ¬ values.length < m.stack.size)
    (v : Value) : MachineM.push v m = .error (.fault .stackOverflow) m := by
  apply MachineM.push_of_full
  rw [h.sp]
  have := h.size
  omega

theorem pop (h : m.Stacked (below ++ [v])) :
    MachineM.pop m = .ok v { m with sp := below.length } ∧
      Stacked { m with sp := below.length } below := by
  have hsp : m.sp = (below.length + 1 : Nat) := by
    rw [h.sp, List.length_append, List.length_singleton]
  exact ⟨MachineM.pop_of_carries h.carries hsp, h.carries.of_append, rfl, h.size⟩

end Stacked

variable {m : Machine} {below : List Value} {pairs : List (Value × Value)}

/-- The pairs are read where they lie on the stack, and give way to the hash. -/
theorem execute_hash (h : m.Stacked (below ++ operands pairs)) :
    MachineM.execute .hash (2 * pairs.length) 0 m = (do
      let entries ← MachineM.readEntries below.length [] pairs.length
      MachineM.setSp below.length
      MachineM.push (.hash (← MachineM.allocate) entries)) m := by
  have hhalf : (2 * pairs.length + 1) / 2 = pairs.length := by omega
  have hlow : m.sp - (2 * pairs.length : Nat) = below.length := by
    rw [h.sp, List.length_append, length_operands]
    omega
  simp only [MachineM.execute, MachineM.makeHash, MachineM.sp, EStateM.bind_apply,
    EStateM.get_apply, EStateM.pure_apply, hhalf, hlow]

private theorem execute_hash_error (h : m.Stacked (below ++ operands pairs)) {f : Fault}
    (he : Entries.ofValues [] (operands pairs) = .error f) :
    MachineM.execute .hash (2 * pairs.length) 0 m = .error (.fault f) m := by
  have hread := MachineM.readEntries_carries h.carries [] (length_operands pairs)
  rw [he] at hread
  rw [execute_hash h, EStateM.bind_apply, hread]

private theorem execute_hash_ok (h : m.Stacked (below ++ operands pairs)) {entries : Entries}
    (he : Entries.ofValues [] (operands pairs) = .ok entries) :
    MachineM.execute .hash (2 * pairs.length) 0 m =
      MachineM.push (.hash m.fresh entries)
        { m with sp := below.length, fresh := m.fresh + 1 } := by
  have hread := MachineM.readEntries_carries h.carries [] (length_operands pairs)
  rw [he] at hread
  rw [execute_hash h, EStateM.bind_ok hread]
  rfl

private theorem execute_index {left k v : Value} (h : m.Stacked (below ++ [left, k]))
    (hv : left.index k = .ok v) :
    ∃ m', MachineM.execute .index 0 0 m = .ok () m' ∧ m'.Stacked (below ++ [v]) := by
  have hsplit : below ++ [left, k] = (below ++ [left]) ++ [k] := by simp
  rw [hsplit] at h
  obtain ⟨hpop, h₁⟩ := h.pop
  obtain ⟨hpop₁, h₂⟩ := h₁.pop
  have hroom : below.length < m.stack.size := by
    have := h.carries.length_le
    simp only [List.length_append, List.length_singleton] at this
    omega
  obtain ⟨m', hpush, hm'⟩ := h₂.push hroom v
  refine ⟨m', ?_, hm'⟩
  simp only [MachineM.execute, MachineM.index, EStateM.bind_apply, hpop, hpop₁, hv, MachineM.check,
    EStateM.pure_apply, hpush]

/-- Instruction `index` on a hash with these entries finds, for every value, the last of the pairs
with an equal key. -/
def Finds (entries : Entries) (pairs : List (Value × Value)) : Prop :=
  ∀ (m : Machine) (below : List Value) (id : Nat) (k : Value),
    m.Stacked (below ++ [.hash id entries, k]) →
    ∃ m', MachineM.execute .index 0 0 m = .ok () m' ∧
      m'.Stacked (below ++ [((last? pairs k).map (·.2)).getD .null])

private theorem finds_of_collects {entries : Entries} (h : entries.Collects pairs)
    (hp : ∀ p ∈ pairs, p.1.Hashable) : Finds entries pairs :=
  fun _ _ id k hm => execute_index hm (h.index hp id k)

/-- Only on a full stack, without a pair to make room, there is no hash in the end. -/
theorem execute_hash_of_hashable (h : m.Stacked (below ++ operands pairs))
    (hp : ∀ p ∈ pairs, p.1.Hashable) :
    (pairs = [] ∧ below.length = m.stack.size ∧ ∃ m',
      MachineM.execute .hash (2 * pairs.length) 0 m = .error (.fault .stackOverflow) m') ∨
    ∃ m' entries, MachineM.execute .hash (2 * pairs.length) 0 m = .ok () m' ∧
      m'.Stacked (below ++ [.hash m.fresh entries]) ∧ Entries.Collects entries pairs := by
  obtain ⟨entries, he, hcollects⟩ := Entries.ofValues_collects .nil hp
  have hlength := h.carries.length_le
  have hbelow : Stacked { m with sp := below.length, fresh := m.fresh + 1 } below :=
    ⟨h.carries.of_append, rfl, h.size⟩
  rw [List.length_append, length_operands] at hlength
  rw [execute_hash_ok h he]
  by_cases hroom : below.length < m.stack.size
  · obtain ⟨m', hpush, hm'⟩ := hbelow.push hroom (.hash m.fresh entries)
    exact .inr ⟨m', entries, hpush, hm', hcollects⟩
  · have hnone : pairs.length = 0 := by omega
    exact .inl ⟨List.length_eq_zero_iff.mp hnone, by omega, _, hbelow.push_full hroom _⟩

/-- Instruction `hash` fails for a key iff some key can be none, and names the kind of the first
such key. Otherwise it makes a hash with one entry for all keys that are equal, in the place of the
first of them and with the last key and value; instruction `index` finds for every value what the
last pair with an equal key has, and nothing for a value that can be no key. -/
theorem hash_literal_agrees (h : m.Stacked (below ++ operands pairs)) :
    let made := MachineM.execute .hash (2 * pairs.length) 0 m
    ((∃ kind m', made = .error (.fault (.hashKey kind)) m') ↔ ∃ p ∈ pairs, ¬ p.1.Hashable) ∧
      (∀ p, unhashable? pairs = some p → made = .error (.fault (.hashKey p.1.kind)) m) ∧
      ((∀ p ∈ pairs, p.1.Hashable) →
        (pairs = [] ∧ below.length = m.stack.size ∧
          ∃ m', made = .error (.fault .stackOverflow) m') ∨
        ∃ m' entries, made = .ok () m' ∧ m'.Stacked (below ++ [.hash m.fresh entries]) ∧
          entries.map (fun e => (e.1.toValue, e.2)) =
            (firsts pairs).map (fun p => (last? pairs p.1).getD p) ∧
          Finds entries pairs ∧ ∀ k, ¬ k.Hashable → last? pairs k = none) := by
  intro made
  have hfails : ∀ p, unhashable? pairs = some p →
      made = .error (.fault (.hashKey p.1.kind)) m :=
    fun p hp => execute_hash_error h (Entries.ofValues_of_unhashable? hp [])
  refine ⟨⟨?_, ?_⟩, hfails, fun hp => ?_⟩
  · rintro ⟨kind, m', hmade⟩
    by_contra hnone
    have hp : ∀ p ∈ pairs, p.1.Hashable := by
      intro p hmem
      by_contra hkey
      exact hnone ⟨p, hmem, hkey⟩
    obtain ⟨-, -, m₁, hfull⟩ | ⟨m₁, entries, hok, -⟩ := execute_hash_of_hashable h hp
    · cases hmade.symm.trans hfull
    · cases hmade.symm.trans hok
  · rintro ⟨p, hmem, hkey⟩
    have hsome : (unhashable? pairs).isSome = true := by
      rw [unhashable?, List.find?_isSome]
      exact ⟨p, hmem, decide_eq_true hkey⟩
    obtain ⟨q, hq⟩ := Option.isSome_iff_exists.mp hsome
    exact ⟨q.1.kind, m, hfails q hq⟩
  · obtain hfull | ⟨m', entries, hok, hm', hcollects⟩ := execute_hash_of_hashable h hp
    · exact .inl hfull
    · exact .inr ⟨m', entries, hok, hm', hcollects.entries_eq hp, finds_of_collects hcollects hp,
        fun k hk => last?_of_not_hashable hp hk⟩

/-- A number, a truth value and a text that print alike are three keys, and the number comes
twice. -/
theorem hash_literal_agrees_alike :
    let pairs : List (Value × Value) := [(.int 1, .str "a"), (.bool true, .str "b"),
      (.str "1", .str "c"), (.int 1, .str "d")]
    let m : Machine := { new #[] #[] { size := 0 } { stackSize := 8 } with
      stack := Slots.ofList (operands pairs), sp := 8 }
    ∃ m' entries, MachineM.execute .hash 8 0 m = .ok () m' ∧
      m'.Stacked [.hash m.fresh entries] ∧
      entries.map (fun e => (e.1.toValue, e.2)) =
        [(.int 1, .str "d"), (.bool true, .str "b"), (.str "1", .str "c")] ∧
      Finds entries pairs := by
  intro pairs m
  have hm : m.Stacked ([] ++ operands pairs) := ⟨Slots.carries_ofList _, rfl, rfl⟩
  obtain ⟨-, -, hall⟩ := hash_literal_agrees hm
  obtain ⟨hnil, -⟩ | ⟨m', entries, hok, hm', hentries, hfinds, -⟩ := hall (by decide)
  · exact absurd hnil (List.cons_ne_nil _ _)
  · exact ⟨m', entries, hok, hm', hentries, hfinds⟩

end Machine

end ClosureVM
