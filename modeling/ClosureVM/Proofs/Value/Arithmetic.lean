import ClosureVM.Value.Operation
import Mathlib.Algebra.Ring.Int.Defs
import Mathlib.Algebra.Ring.Nat

/-! Arithmetic is exact or an error. A result is the mathematical one and a word, and nothing is
divided by zero. Any other result is reported as an overflow, if it has few enough digits to be
written. -/
namespace ClosureVM

/-- `q` is the quotient of `a` by `b` without its fraction: what remains is smaller than the
divisor, and has the sign of the dividend unless it is zero. -/
def IsQuotient (a b q : Int) : Prop :=
  ∃ m, a = q * b + m ∧ m.natAbs < b.natAbs ∧ (m = 0 ∨ m.sign = a.sign)

/-- What an arithmetic operator comes to, whatever the size of the result. -/
def Opcode.Exact (op : Opcode) (a b r : Int) : Prop :=
  match op with
  | .add => r = a + b
  | .sub => r = a - b
  | .mul => r = a * b
  | .div => IsQuotient a b r
  | _ => False

theorem isQuotient_iff {a b q : Int} : IsQuotient a b q ↔ b ≠ 0 ∧ q = a.tdiv b := by
  constructor
  · rintro ⟨m, ha, hm, hsign⟩
    have hb : b ≠ 0 := by omega
    refine ⟨hb, ?_⟩
    have hsum : m + b * q = a := by rw [Int.mul_comm b q, Int.add_comm, ← ha]
    -- the remainder of a dividend that is not negative is not negative, and the other way round
    obtain hpos | hneg := Int.le_total 0 a
    · have h0 : 0 ≤ m := by
        obtain rfl | hs := hsign
        · exact Int.le_refl 0
        · exact Int.sign_nonneg_iff.mp (hs ▸ Int.sign_nonneg_iff.mpr hpos)
      exact ((Int.tdiv_tmod_unique hpos hb).mpr ⟨hsum, h0, by omega⟩).1.symm
    · have h0 : m ≤ 0 := by
        obtain rfl | hs := hsign
        · exact Int.le_refl 0
        · exact Int.sign_nonpos_iff.mp (hs ▸ Int.sign_nonpos_iff.mpr hneg)
      exact ((Int.tdiv_tmod_unique' hneg hb).mpr ⟨hsum, by omega, h0⟩).1.symm
  · rintro ⟨hb, rfl⟩
    refine ⟨a.tmod b, (Int.tdiv_mul_add_tmod a b).symm, ?_, ?_⟩
    · rw [Int.natAbs_tmod]
      exact Nat.mod_lt _ (Int.natAbs_pos.mpr hb)
    · by_cases hd : b ∣ a
      · exact .inl (Int.tmod_eq_zero_of_dvd hd)
      · exact .inr (by rw [Int.sign_tmod, if_neg hd])

theorem Opcode.Exact.unique {op : Opcode} {a b r s : Int} (hr : op.Exact a b r)
    (hs : op.Exact a b s) : r = s := by
  cases op with
  | add | sub | mul => exact hr.trans hs.symm
  | div => exact (isQuotient_iff.mp hr).2.trans (isQuotient_iff.mp hs).2.symm
  | _ => exact hr.elim

/-- An operation has a result that is checked, divides by zero, or is none of the four. -/
theorem integerOperation_cases (op : Opcode) (a b : Int) :
    (∃ r, op.Exact a b r ∧ integerOperation op a b = checkWord r) ∨
      (op = .div ∧ b = 0 ∧ integerOperation op a b = .error (.fault .divisionByZero)) ∨
      (op ∉ [.add, .sub, .mul, .div] ∧
        integerOperation op a b = .error (.fault (.integerOperator op))) := by
  cases op with
  | add | sub | mul => exact .inl ⟨_, rfl, rfl⟩
  | div =>
    by_cases hb : b = 0
    · exact .inr (.inl ⟨rfl, hb, if_pos hb⟩)
    · exact .inl ⟨quotient a b, isQuotient_iff.mpr ⟨hb, quotient_eq_tdiv a b⟩, if_neg hb⟩
  | _ => exact .inr (.inr ⟨by decide, rfl⟩)

theorem exists_exact_iff {op : Opcode} {a b : Int} :
    (∃ r, op.Exact a b r) ↔ op ∈ [.add, .sub, .mul, .div] ∧ ¬ (op = .div ∧ b = 0) := by
  cases op with
  | add | sub | mul => exact ⟨fun _ => ⟨by decide, by simp⟩, fun _ => ⟨_, rfl⟩⟩
  | div =>
    constructor
    · rintro ⟨r, hr⟩
      exact ⟨by decide, fun h => (isQuotient_iff.mp hr).1 h.2⟩
    · rintro ⟨-, hb⟩
      exact ⟨a.tdiv b, isQuotient_iff.mpr ⟨fun h => hb ⟨rfl, h⟩, rfl⟩⟩
  | _ =>
    constructor
    · rintro ⟨r, hr⟩
      exact hr.elim
    · rintro ⟨hop, -⟩
      exact absurd hop (by decide)

/-! ### The check of a result -/

section

variable {n r : Int}

theorem isWritable_iff : Text.isWritable n = true ↔ n.natAbs < 10 ^ Text.maxDigits := by
  have hpow (k : Nat) : Nat.pow 10 k = 10 ^ k := rfl
  rw [Text.isWritable, decide_eq_true_iff, hpow]

/-- Words and their neighbours have nineteen digits at most. -/
theorem isWritable_of_lt (h : n.natAbs < 10 ^ 19) : n.natAbs < 10 ^ Text.maxDigits :=
  Nat.lt_of_lt_of_le h (Nat.pow_le_pow_right (by decide) (by decide))

theorem IsWord.isWritable (h : IsWord n) : n.natAbs < 10 ^ Text.maxDigits := by
  unfold IsWord minInt maxInt at h
  exact isWritable_of_lt (by omega)

theorem checkWord_eq_ok : checkWord n = .ok r ↔ n = r ∧ IsWord r := by
  unfold checkWord
  split
  · rename_i hn
    constructor
    · rintro ⟨⟩
      exact ⟨rfl, hn⟩
    · rintro ⟨rfl, -⟩
      rfl
  · rename_i hn
    constructor
    · split <;> rintro ⟨⟩
    · rintro ⟨rfl, hr⟩
      exact absurd hr hn

theorem checkWord_eq_fault {f : Fault} : checkWord n = .error (.fault f) ↔
    f = .integerOverflow n ∧ ¬ IsWord n ∧ n.natAbs < 10 ^ Text.maxDigits := by
  rw [← isWritable_iff]
  unfold checkWord
  split
  · rename_i hn
    exact ⟨fun h => (by cases h), fun h => absurd hn h.2.1⟩
  · rename_i hn
    split
    · rename_i hw
      constructor
      · rintro ⟨⟩
        exact ⟨rfl, hn, hw⟩
      · rintro ⟨rfl, -, -⟩
        rfl
    · rename_i hw
      exact ⟨fun h => (by cases h), fun h => absurd h.2.2 hw⟩

private theorem checkWord_eq_unwritable :
    checkWord n = .error .unwritable ↔ 10 ^ Text.maxDigits ≤ n.natAbs := by
  rw [← Nat.not_lt]
  unfold checkWord
  split
  · rename_i hn
    exact ⟨fun h => (by cases h), fun h => absurd hn.isWritable h⟩
  · rw [← isWritable_iff]
    split
    · rename_i hw
      exact ⟨fun h => (by cases h), fun h => absurd hw h⟩
    · rename_i hw
      exact ⟨fun _ => hw, fun _ => rfl⟩

end

/-- But for the two errors that come before it, an operation comes to the check of its exact
result. -/
theorem integerOperation_eq_iff {op : Opcode} {a b : Int} {x : Except Stop Int}
    (hzero : x ≠ .error (.fault .divisionByZero))
    (hop : ∀ op, x ≠ .error (.fault (.integerOperator op))) :
    integerOperation op a b = x ↔ ∃ r, op.Exact a b r ∧ checkWord r = x := by
  obtain ⟨r, hr, h⟩ | ⟨rfl, hb, h⟩ | ⟨hne, h⟩ := integerOperation_cases op a b
  · rw [h]
    constructor
    · exact fun hx => ⟨r, hr, hx⟩
    · rintro ⟨s, hs, hx⟩
      rw [hr.unique hs, hx]
  · rw [h]
    refine ⟨fun hx => absurd hx.symm hzero, ?_⟩
    rintro ⟨r, hr, -⟩
    exact absurd ⟨rfl, hb⟩ (exists_exact_iff.mp ⟨r, hr⟩).2
  · rw [h]
    refine ⟨fun hx => absurd hx.symm (hop op), ?_⟩
    rintro ⟨r, hr, -⟩
    exact absurd (exists_exact_iff.mp ⟨r, hr⟩).1 hne

private theorem integerOperation_eq_ok {op : Opcode} {a b r : Int} :
    integerOperation op a b = .ok r ↔ op.Exact a b r ∧ IsWord r := by
  rw [integerOperation_eq_iff (by simp) (by simp)]
  constructor
  · rintro ⟨s, hs, hx⟩
    obtain ⟨rfl, hr⟩ := checkWord_eq_ok.mp hx
    exact ⟨hs, hr⟩
  · rintro ⟨hr, hw⟩
    exact ⟨r, hr, checkWord_eq_ok.mpr ⟨rfl, hw⟩⟩

private theorem integerOperation_eq_divisionByZero {op : Opcode} {a b : Int} :
    integerOperation op a b = .error (.fault .divisionByZero) ↔ op = .div ∧ b = 0 := by
  constructor
  · intro hz
    obtain ⟨r, -, h⟩ | ⟨hop, hb, -⟩ | ⟨-, h⟩ := integerOperation_cases op a b
    · cases (checkWord_eq_fault.mp (h.symm.trans hz)).1
    · exact ⟨hop, hb⟩
    · cases h.symm.trans hz
  · rintro ⟨rfl, hb⟩
    exact if_pos hb

theorem integerOperation_eq_integerOverflow {op : Opcode} {a b r : Int} :
    integerOperation op a b = .error (.fault (.integerOverflow r)) ↔
      op.Exact a b r ∧ ¬ IsWord r ∧ r.natAbs < 10 ^ Text.maxDigits := by
  rw [integerOperation_eq_iff (by simp) (by simp)]
  constructor
  · rintro ⟨s, hs, hx⟩
    obtain ⟨⟨⟩, h⟩ := checkWord_eq_fault.mp hx
    exact ⟨hs, h⟩
  · rintro ⟨hr, h⟩
    exact ⟨r, hr, checkWord_eq_fault.mpr ⟨rfl, h⟩⟩

/-- Of the quotients of words, only that of the least word by minus one is no word. -/
theorem IsWord.tdiv_iff {a b : Int} (ha : IsWord a) (hb : b ≠ 0) :
    ¬ IsWord (a.tdiv b) ↔ a = minInt ∧ b = -1 := by
  constructor
  · intro h
    have habs : (a.tdiv b).natAbs = a.natAbs / b.natAbs := Int.natAbs_tdiv a b
    have hle : a.natAbs / b.natAbs ≤ a.natAbs := Nat.div_le_self _ _
    -- the quotient can only be too large by one, and so it is as large as the dividend
    have hmin : a = minInt ∧ a.natAbs / b.natAbs = a.natAbs := by
      unfold IsWord minInt maxInt at *
      omega
    have hone : b.natAbs = 1 := by
      have hpos : 0 < a.natAbs := by
        rw [hmin.1]
        decide
      exact (Nat.div_eq_self.mp hmin.2).resolve_left (by omega)
    refine ⟨hmin.1, ?_⟩
    obtain rfl | rfl : b = 1 ∨ b = -1 := by omega
    · rw [Int.tdiv_one] at h
      exact absurd ha h
    · rfl
  · rintro ⟨rfl, rfl⟩
    decide

/-- An operation gives `r` iff `r` is the exact result and a word. It is refused iff it divides by
zero, and otherwise there is one exact result; if that is no word, it is reported as an overflow iff
it has at most as many digits as can be written. Words have no quotient that overflows, save one. -/
theorem integerOperation_exact_or_reported (op : Opcode) (a b : Int) :
    (∀ r, integerOperation op a b = .ok r ↔ op.Exact a b r ∧ IsWord r) ∧
    (integerOperation op a b = .error (.fault .divisionByZero) ↔ op = .div ∧ b = 0) ∧
    ((∃! r, op.Exact a b r) ↔ op ∈ [.add, .sub, .mul, .div] ∧ ¬ (op = .div ∧ b = 0)) ∧
    (∀ r, integerOperation op a b = .error (.fault (.integerOverflow r)) ↔
      op.Exact a b r ∧ ¬ IsWord r ∧ r.natAbs < 10 ^ Text.maxDigits) ∧
    (integerOperation op a b = .error .unwritable ↔
      ∃ r, op.Exact a b r ∧ 10 ^ Text.maxDigits ≤ r.natAbs) ∧
    (IsWord a → IsWord b →
      ((∃ r, integerOperation .div a b = .error (.fault (.integerOverflow r))) ↔
        a = minInt ∧ b = -1)) := by
  refine ⟨fun r => integerOperation_eq_ok, integerOperation_eq_divisionByZero, ?_,
    fun r => integerOperation_eq_integerOverflow, ?_, fun ha _ => ?_⟩
  · rw [← exists_exact_iff]
    refine ⟨fun h => h.exists, ?_⟩
    rintro ⟨r, hr⟩
    exact ⟨r, hr, fun s hs => hs.unique hr⟩
  · rw [integerOperation_eq_iff (by simp) (by simp)]
    simp only [checkWord_eq_unwritable]
  · simp only [integerOperation_eq_integerOverflow, Opcode.Exact, isQuotient_iff]
    constructor
    · rintro ⟨r, ⟨hb, rfl⟩, hw, -⟩
      exact (ha.tdiv_iff hb).mp hw
    · rintro ⟨rfl, rfl⟩
      exact ⟨_, ⟨by decide, rfl⟩, (ha.tdiv_iff (by decide)).mpr ⟨rfl, rfl⟩,
        isWritable_of_lt (by decide)⟩

/-- A product of so many digits that the overflow cannot be put into words. -/
theorem integerOperation_mul_unwritable :
    let n := Int.pow 10 2200
    Opcode.Exact .mul n n (n * n) ∧ ¬ IsWord (n * n) ∧
      integerOperation .mul n n = .error .unwritable := by
  refine ⟨rfl, ?_, ?_⟩ <;> decide +kernel

end ClosureVM
