import ClosureVM.Text.Blank
import ClosureVM.Text.Decimal

/-! Text that is put together from words, lines and numerals is taken apart into the same. -/
namespace ClosureVM.Text

/-! ### Digits -/

section

variable {c : Char}

theorem isDigit_bounds (h : c.isDigit = true) : 0x30 ≤ c.toNat ∧ c.toNat ≤ 0x39 :=
  Char.isDigit_iff_toNat.mp h

theorem digitValue?_of_isDigit (h : c.isDigit = true) :
    digitValue? c = some (c.toNat - '0'.toNat) := by
  obtain ⟨hlo, hhi⟩ := isDigit_bounds h
  have hfirst : (zeroDigits.find? fun z => z ≤ c.toNat && c.toNat < z + 10) = some 0x30 := by
    refine List.find?_cons_of_pos ?_
    simp only [Bool.and_eq_true, decide_eq_true_eq]
    omega
  rw [digitValue?, hfirst]
  rfl

theorem isDigit_of_isDigit (h : c.isDigit = true) : isDigit c = true := by
  rw [isDigit, digitValue?_of_isDigit h]
  rfl

/-- Characters that leave ink, of the first 128. -/
theorem not_isBlank_of_bounds (hlo : 0x21 ≤ c.toNat) (hhi : c.toNat ≤ 0x7e) :
    isBlank c = false := by
  have hall : ∀ r ∈ blanks, r.2 < 0x21 ∨ 0x7e < r.1 := by decide
  rw [isBlank, inRanges, List.any_eq_false]
  intro r hr
  have := hall r hr
  simp only [Bool.and_eq_true, decide_eq_true_eq]
  omega

theorem not_isBlank_of_isDigit (h : c.isDigit = true) : isBlank c = false := by
  obtain ⟨hlo, hhi⟩ := isDigit_bounds h
  exact not_isBlank_of_bounds (by omega) (by omega)

/-- Line ends are blank. -/
theorem not_isLineEnd_of_not_isBlank (h : isBlank c = false) : isLineEnd c = false := by
  have hall : ∀ r ∈ lineEnds, ∃ r' ∈ blanks, r'.1 ≤ r.1 ∧ r.2 ≤ r'.2 := by decide
  rw [isBlank, inRanges, List.any_eq_false] at h
  rw [isLineEnd, inRanges, List.any_eq_false]
  intro r hr
  obtain ⟨r', hr', h₁, h₂⟩ := hall r hr
  have := h r' hr'
  simp only [Bool.and_eq_true, decide_eq_true_eq] at this ⊢
  omega

end

private theorem readDigits?_eq {l : List Char} (hl : ∀ c ∈ l, c.isDigit = true) {count : Nat}
    (value : Nat) (hc : count + l.length ≤ maxDigits) :
    readDigits? count value l = some (Nat.ofDigitChars 10 l value) := by
  induction l generalizing count value with
  | nil => rw [readDigits?, if_pos (by simpa using hc), Nat.ofDigitChars_nil]
  | cons c l ih =>
    obtain ⟨hd, hl⟩ := List.forall_mem_cons.mp hl
    rw [List.length_cons] at hc
    rw [readDigits?, digitValue?_of_isDigit hd, Nat.ofDigitChars_cons]
    · exact ih hl _ (by omega)
    · rintro _ _ rfl
      exact absurd hd (by decide)

theorem isDigit_of_mem_toDigits (n : Nat) : ∀ c ∈ Nat.toDigits 10 n, c.isDigit = true :=
  fun _ hc => Nat.isDigit_of_mem_toDigits (by decide) (by decide) hc

/-- Numerals of natural numbers are read back. -/
theorem readInt?_toDigits {n : Nat} (h : (Nat.toDigits 10 n).length ≤ maxDigits) :
    readInt? (Nat.toDigits 10 n) = some (n : Int) := by
  have hd := isDigit_of_mem_toDigits n
  have hv := @Nat.ofDigitChars_ten_toDigits n
  cases hl : Nat.toDigits 10 n with
  | nil => exact absurd hl Nat.toDigits_ne_nil
  | cons c l =>
    rw [hl] at hd h hv
    obtain ⟨hc, hl⟩ := List.forall_mem_cons.mp hd
    rw [List.length_cons] at h
    rw [Nat.ofDigitChars_cons, Nat.mul_zero, Nat.zero_add] at hv
    have hn : readNat? (c :: l) = some n := by
      rw [readNat?, digitValue?_of_isDigit hc]
      refine (readDigits?_eq hl _ (by omega)).trans ?_
      rw [hv]
    rw [readInt?, hn]
    · rfl
    · rintro _ ⟨⟩
      exact absurd hc (by decide)
    · rintro _ ⟨⟩
      exact absurd hc (by decide)

/-! ### Words -/

theorem foldl_word {w : List Char} (hw : ∀ c ∈ w, isBlank c = false) (s : Cut) :
    w.foldl Cut.word s = { s with current := w.reverse ++ s.current } := by
  induction w generalizing s with
  | nil => rfl
  | cons c w ih =>
    obtain ⟨hc, hw⟩ := List.forall_mem_cons.mp hw
    rw [List.foldl_cons, ih hw, Cut.word, hc]
    simp

theorem intercalate_cons_cons (w w' : List Char) (ws : List (List Char)) :
    [' '].intercalate (w :: w' :: ws) = w ++ ' ' :: [' '].intercalate (w' :: ws) := by
  simp [List.intercalate]

/-- Words with a space between them. -/
theorem words_intercalate {ws : List (List Char)} (hne : ∀ w ∈ ws, w ≠ [])
    (hw : ∀ w ∈ ws, ∀ c ∈ w, isBlank c = false) : words ([' '].intercalate ws) = ws := by
  have hspace : isBlank ' ' = true := by decide
  have hfold (done : List (List Char)) :
      (([' '].intercalate ws).foldl Cut.word { done }).pieces = done.reverse ++ ws := by
    induction ws generalizing done with
    | nil => simp [List.intercalate, Cut.pieces]
    | cons w ws ih =>
      obtain ⟨hn, hne⟩ := List.forall_mem_cons.mp hne
      obtain ⟨hb, hw⟩ := List.forall_mem_cons.mp hw
      cases ws with
      | nil => simp [List.intercalate, foldl_word hb, Cut.pieces, hn]
      | cons w' ws =>
        rw [intercalate_cons_cons, List.foldl_append, foldl_word hb, List.foldl_cons, Cut.word,
          hspace]
        simp [hn, ih hne hw]
  exact hfold []

theorem mem_of_mem_intercalate {ws : List (List Char)} {c : Char}
    (h : c ∈ [' '].intercalate ws) : c = ' ' ∨ ∃ w ∈ ws, c ∈ w := by
  induction ws with
  | nil => cases h
  | cons w ws ih =>
    cases ws with
    | nil => exact .inr ⟨w, List.mem_singleton_self w, by simpa [List.intercalate] using h⟩
    | cons w' ws =>
      rw [intercalate_cons_cons, List.mem_append, List.mem_cons] at h
      obtain h | rfl | h := h
      · exact .inr ⟨w, List.mem_cons_self, h⟩
      · exact .inl rfl
      · exact (ih h).imp_right fun ⟨v, hv, hc⟩ => ⟨v, List.mem_cons_of_mem _ hv, hc⟩

/-! ### Lines -/

theorem foldl_line {l : List Char} (hl : ∀ c ∈ l, isLineEnd c = false) {s : Cut}
    (hs : s.afterReturn = false) :
    l.foldl Cut.line s = { s with current := l.reverse ++ s.current } := by
  induction l generalizing s with
  | nil => rfl
  | cons c l ih =>
    obtain ⟨hc, hl⟩ := List.forall_mem_cons.mp hl
    have hstep : s.line c = { s with current := c :: s.current } := by
      simp [Cut.line, hc, hs]
    rw [List.foldl_cons, hstep, @ih hl { s with current := c :: s.current } hs]
    simp

/-- Lines with a line feed behind each of them. -/
theorem lines_flatMap {ls : List (List Char)} (hl : ∀ l ∈ ls, ∀ c ∈ l, isLineEnd c = false) :
    lines (ls.flatMap (· ++ ['\n'])) = ls := by
  have hend : isLineEnd '\n' = true := by decide
  have hfold (done : List (List Char)) :
      (ls.flatMap (· ++ ['\n'])).foldl Cut.line { done } = { done := ls.reverse ++ done } := by
    induction ls generalizing done with
    | nil => rfl
    | cons l ls ih =>
      obtain ⟨hl, hls⟩ := List.forall_mem_cons.mp hl
      rw [List.flatMap_cons, List.foldl_append, List.foldl_append, foldl_line hl rfl]
      simp [Cut.line, hend, ih hls]
  rw [lines, hfold]
  simp [Cut.pieces]

end ClosureVM.Text
