import ClosureVM.Proofs.Text.Splitting
import Mathlib.Data.List.Induction

/-! Text that is spaced at will: the words of a line do not depend on the gaps between them, and a
line feed between two texts parts their lines. -/
namespace ClosureVM.Text

/-! ### Words and the gaps between them -/

/-- A blank that does not end a line, such as a space or a tab. -/
def isGap (c : Char) : Bool := isBlank c && !isLineEnd c

theorem isGap_space : isGap ' ' = true := by decide

theorem isGap_tab : isGap '\t' = true := by decide

/-- The words stand in the line in this order, with gaps of any length before, between and behind
them. A further word does not follow directly. -/
inductive Spaced : List (List Char) → List Char → Prop
  | blank {gap : List Char} : (∀ c ∈ gap, isGap c = true) → Spaced [] gap
  | word {gap word line : List Char} {words : List (List Char)} :
    (∀ c ∈ gap, isGap c = true) → Spaced words line →
      (words ≠ [] → ∃ c rest, line = c :: rest ∧ isGap c = true) →
      Spaced (word :: words) (gap ++ word ++ line)

section

variable {c : Char}

theorem isBlank_of_isGap (h : isGap c = true) : isBlank c = true := by
  rw [isGap, Bool.and_eq_true] at h
  exact h.1

theorem not_isLineEnd_of_isGap (h : isGap c = true) : isLineEnd c = false := by
  rw [isGap, Bool.and_eq_true, Bool.not_eq_true'] at h
  exact h.2

/-- No digit is blank. -/
theorem not_isBlank_of_digitValue? {n : Nat} (h : digitValue? c = some n) : isBlank c = false := by
  have hall : ∀ z ∈ zeroDigits, ∀ r ∈ blanks, r.2 < z ∨ z + 10 ≤ r.1 := by decide
  obtain ⟨z, hz, -⟩ := Option.map_eq_some_iff.mp h
  have hzc := List.find?_some hz
  rw [isBlank, inRanges, List.any_eq_false]
  intro r hr
  have := hall z (List.mem_of_find?_eq_some hz) r hr
  simp only [Bool.and_eq_true, decide_eq_true_eq] at hzc ⊢
  omega

theorem not_isBlank_of_anyDigit (h : isDigit c = true) : isBlank c = false := by
  rw [isDigit, Bool.or_eq_true] at h
  obtain h | h := h
  · obtain ⟨n, hn⟩ := Option.isSome_iff_exists.mp h
    exact not_isBlank_of_digitValue? hn
  · have hall : ∀ r ∈ loneDigits, ∀ r' ∈ blanks, r'.2 < r.1 ∨ r.2 < r'.1 := by decide
    obtain ⟨r, hr, hc⟩ := List.any_eq_true.mp h
    rw [isBlank, inRanges, List.any_eq_false]
    intro r' hr'
    have := hall r hr r' hr'
    simp only [Bool.and_eq_true, decide_eq_true_eq] at hc ⊢
    omega

end

/-- A numeral has no blanks. -/
theorem not_isBlank_of_readDigits? {count value n : Nat} {l : List Char}
    (h : readDigits? count value l = some n) : ∀ c ∈ l, isBlank c = false := by
  fun_induction readDigits? count value l with
  | case1 | case2 => exact List.forall_mem_nil _
  | case3 count value c rest ih =>
    obtain ⟨v, hv, hrest⟩ := Option.bind_eq_some_iff.mp h
    refine List.forall_mem_cons.mpr ⟨by decide, List.forall_mem_cons.mpr ?_⟩
    exact ⟨not_isBlank_of_digitValue? hv, ih v hrest⟩
  | case4 count value c rest _ ih =>
    obtain ⟨v, hv, hrest⟩ := Option.bind_eq_some_iff.mp h
    exact List.forall_mem_cons.mpr ⟨not_isBlank_of_digitValue? hv, ih v hrest⟩

theorem not_isBlank_of_readNat? {n : Nat} {w : List Char} (h : readNat? w = some n) :
    w ≠ [] ∧ ∀ c ∈ w, isBlank c = false := by
  cases w with
  | nil => cases h
  | cons c rest =>
    obtain ⟨v, hv, hrest⟩ := Option.bind_eq_some_iff.mp h
    refine ⟨List.cons_ne_nil _ _, List.forall_mem_cons.mpr ?_⟩
    exact ⟨not_isBlank_of_digitValue? hv, not_isBlank_of_readDigits? hrest⟩

theorem not_isBlank_of_readInt? {n : Int} {w : List Char} (h : readInt? w = some n) :
    w ≠ [] ∧ ∀ c ∈ w, isBlank c = false := by
  unfold readInt? at h
  split at h
  · obtain ⟨k, hk, -⟩ := Option.map_eq_some_iff.mp h
    obtain ⟨m, hm, -⟩ := Option.bind_eq_some_iff.mp hk
    exact ⟨List.cons_ne_nil _ _,
      List.forall_mem_cons.mpr ⟨by decide, (not_isBlank_of_readNat? hm).2⟩⟩
  · obtain ⟨k, hk, -⟩ := Option.map_eq_some_iff.mp h
    exact ⟨List.cons_ne_nil _ _,
      List.forall_mem_cons.mpr ⟨by decide, (not_isBlank_of_readNat? hk).2⟩⟩
  · obtain ⟨k, hk, -⟩ := Option.map_eq_some_iff.mp h
    exact not_isBlank_of_readNat? hk

theorem foldl_gap {gap : List Char} (hg : ∀ c ∈ gap, isGap c = true) {s : Cut}
    (hs : s.current = []) : gap.foldl Cut.word s = s := by
  induction gap with
  | nil => rfl
  | cons c gap ih =>
    obtain ⟨hc, hg⟩ := List.forall_mem_cons.mp hg
    rw [List.foldl_cons, Cut.word, isBlank_of_isGap hc, if_pos rfl, hs]
    exact ih hg

/-- The line is at its end behind a word, or there is a gap. -/
theorem Spaced.gap_or_nil {ws : List (List Char)} {line : List Char} (h : Spaced ws line)
    (hnext : ws ≠ [] → ∃ c rest, line = c :: rest ∧ isGap c = true) :
    line = [] ∨ ∃ c rest, line = c :: rest ∧ isGap c = true := by
  cases h with
  | blank hg =>
    cases line with
    | nil => exact .inl rfl
    | cons c rest => exact .inr ⟨c, rest, rfl, hg c List.mem_cons_self⟩
  | word => exact .inr (hnext (List.cons_ne_nil _ _))

/-- The words of a line are found whatever the gaps. -/
theorem Spaced.words_eq {ws : List (List Char)} {line : List Char} (h : Spaced ws line)
    (hw : ∀ w ∈ ws, w ≠ [] ∧ ∀ c ∈ w, isBlank c = false) : words line = ws := by
  have hfold (done : List (List Char)) :
      (line.foldl Cut.word { done }).pieces = done.reverse ++ ws := by
    induction h generalizing done with
    | blank hg =>
      rw [foldl_gap hg rfl]
      simp [Cut.pieces]
    | @word gap w line ws hg hs hnext ih =>
      obtain ⟨⟨hne, hb⟩, hw⟩ := List.forall_mem_cons.mp hw
      have hrest := ih hw (w :: done)
      rw [List.append_assoc, List.foldl_append, foldl_gap hg rfl, List.foldl_append, foldl_word hb]
      -- the word is closed by the end of the line or by the gap behind it
      obtain rfl | ⟨c, rest, rfl, hc⟩ := hs.gap_or_nil hnext
      · simpa [Cut.pieces, hne] using hrest
      · rw [List.foldl_cons, Cut.word, isBlank_of_isGap hc] at hrest ⊢
        simpa [hne] using hrest
  exact hfold []

theorem Spaced.not_isLineEnd {ws : List (List Char)} {line : List Char} (h : Spaced ws line)
    (hw : ∀ w ∈ ws, w ≠ [] ∧ ∀ c ∈ w, isBlank c = false) : ∀ c ∈ line, isLineEnd c = false := by
  induction h with
  | blank hg => exact fun c hc => not_isLineEnd_of_isGap (hg c hc)
  | word hg _ _ ih =>
    obtain ⟨⟨-, hb⟩, hw⟩ := List.forall_mem_cons.mp hw
    rw [List.forall_mem_append, List.forall_mem_append]
    exact ⟨⟨fun c hc => not_isLineEnd_of_isGap (hg c hc),
      fun c hc => not_isLineEnd_of_not_isBlank (hb c hc)⟩, ih hw⟩

/-! ### A line feed between two texts -/

private theorem foldl_line_done (text : List Char) (s : Cut) (done : List (List Char)) :
    text.foldl Cut.line { s with done := s.done ++ done } =
      { text.foldl Cut.line s with done := (text.foldl Cut.line s).done ++ done } := by
  induction text generalizing s with
  | nil => rfl
  | cons c text ih =>
    have hstep : Cut.line { s with done := s.done ++ done } c =
        { s.line c with done := (s.line c).done ++ done } := by
      unfold Cut.line
      split
      · rfl
      · split <;> rfl
    rw [List.foldl_cons, List.foldl_cons, hstep, ih]

/-- Behind a carriage return the line is empty so far. -/
theorem current_eq_nil_of_afterReturn (text : List Char)
    (h : (text.foldl Cut.line {}).afterReturn = true) : (text.foldl Cut.line {}).current = [] := by
  cases text using List.reverseRecOn with
  | nil => rfl
  | append_singleton text c =>
    rw [List.foldl_append, List.foldl_cons, List.foldl_nil] at h ⊢
    revert h
    generalize text.foldl Cut.line {} = s
    unfold Cut.line
    split
    · intro h
      cases h
    · split
      · exact fun _ => rfl
      · intro h
        cases h

/-- The lines of two texts with a line feed between them. Between the lines of the first and those
of the second there may be an empty one. -/
theorem lines_append_lineFeed (text₁ text₂ : List Char) :
    ∃ between, (∀ line ∈ between, line = []) ∧
      lines (text₁ ++ '\n' :: text₂) = lines text₁ ++ between ++ lines text₂ := by
  have hend : isLineEnd '\n' = true := by decide
  have hrest (done : List (List Char)) :
      (text₂.foldl Cut.line { done }).pieces = done.reverse ++ lines text₂ := by
    have hd := foldl_line_done text₂ {} done
    rw [List.nil_append] at hd
    rw [hd, lines]
    unfold Cut.pieces
    split <;> simp [*]
  have hcut := current_eq_nil_of_afterReturn text₁
  rw [lines, lines, List.foldl_append, List.foldl_cons]
  generalize text₁.foldl Cut.line {} = s at hcut
  cases hs : s.afterReturn with
  | true =>
    -- the line feed belongs to the end of the last line
    have hstep : s.line '\n' = { done := s.done } := by
      simp [Cut.line, hs, hcut hs]
    refine ⟨[], List.forall_mem_nil _, ?_⟩
    rw [hstep, hrest, List.append_nil, Cut.pieces, hcut hs]
    rfl
  | false =>
    have hstep : s.line '\n' = { done := s.current.reverse :: s.done } := by
      simp [Cut.line, hs, hend]
    rw [hstep, hrest]
    by_cases hc : s.current = []
    · exact ⟨[[]], List.forall_mem_singleton.mpr rfl, by simp [Cut.pieces, hc]⟩
    · exact ⟨[], List.forall_mem_nil _, by simp [Cut.pieces, hc]⟩

/-- A text without a line end is a line, if there is any. -/
theorem lines_of_not_isLineEnd {line : List Char} (h : ∀ c ∈ line, isLineEnd c = false) :
    lines line = if line = [] then [] else [line] := by
  rw [lines, foldl_line h rfl]
  split <;> simp [Cut.pieces, *]

end ClosureVM.Text
