import ClosureVM.Proofs.Code.Continuation
import ClosureVM.Proofs.Code.Scanning

/-! The instructions of structured code with their offsets: how its bytes are read, and that jumps
go forward to an instruction. -/
namespace ClosureVM

/-- Where a jump goes. -/
def Instruction.target? : Instruction → Option Nat
  | ⟨.jump, [target]⟩ | ⟨.jumpNotTruthy, [target]⟩ => some target
  | _ => none

theorem Instruction.target?_of_isPlain {i : Instruction} (h : i.op.isPlain) : i.target? = none := by
  unfold target?
  split
  · cases h
  · cases h
  · rfl

namespace Piece

mutual

/-- The instructions of a piece that starts at `position`. -/
def locate (position : Nat) : Piece → List Located
  | .ins i => [⟨position, i⟩]
  | .branch t e =>
    ⟨position, jumpOver position (totalSize t)⟩ :: (locateAll (position + 3) t ++
      ⟨position + 3 + totalSize t, jumpPast (position + 3 + totalSize t) (totalSize e)⟩ ::
        locateAll (position + 3 + totalSize t + 3) e)
  | .skip => []

def locateAll (position : Nat) : List Piece → List Located
  | [] => []
  | p :: rest => p.locate position ++ locateAll (position + p.size) rest

end

theorem locateAll_append (position : Nat) (ps qs : List Piece) :
    locateAll position (ps ++ qs) =
      locateAll position ps ++ locateAll (position + totalSize ps) qs := by
  induction ps generalizing position with
  | nil => simp [locateAll, totalSize]
  | cons p ps ih => simp [locateAll, totalSize, ih, Nat.add_assoc]

theorem locateAll_branch (position : Nat) (t e rest : List Piece) :
    locateAll position (.branch t e :: rest) =
      ⟨position, jumpOver position (totalSize t)⟩ :: (locateAll (position + 3) t ++
        ⟨position + 3 + totalSize t, jumpPast (position + 3 + totalSize t) (totalSize e)⟩ ::
          (locateAll (position + 3 + totalSize t + 3) e ++
            locateAll (position + 3 + totalSize t + 3 + totalSize e) rest)) := by
  have hs := Piece.add_size_branch position t e
  simp only [locateAll, locate, hs, List.cons_append, List.append_assoc]

/-- An instruction starts at the offset, or the code ends there. -/
def IsBoundary (position : Nat) (ps : List Piece) (offset : Nat) : Prop :=
  offset = position + totalSize ps ∨ ∃ l ∈ locateAll position ps, l.offset = offset

theorem isBoundary_start {position : Nat} {ps : List Piece} (h : Fits position ps) :
    IsBoundary position ps position := by
  cases ps with
  | nil => exact .inl rfl
  | cons p rest =>
    cases p with
    | ins i => exact .inr ⟨_, List.mem_cons_self, rfl⟩
    | branch t e => exact .inr ⟨_, List.mem_cons_self, rfl⟩
    | skip => exact absurd h.1 id

/-- Jumps go forward, to an instruction or to the end. -/
theorem target_isBoundary {position : Nat} {ps : List Piece} (h : Fits position ps) :
    ∀ l ∈ locateAll position ps, ∀ target, l.instruction.target? = some target →
      l.offset < target ∧ IsBoundary position ps target := by
  induction ps using list_induction generalizing position with
  | nil => exact List.forall_mem_nil _
  | ins i rest ih =>
    obtain ⟨⟨hp, -⟩, hr⟩ := h
    intro l hl target ht
    obtain rfl | hl := List.mem_cons.mp hl
    · rw [Instruction.target?_of_isPlain hp] at ht
      cases ht
    · obtain ⟨hlt, hb⟩ := ih hr l hl target ht
      refine ⟨hlt, ?_⟩
      obtain hb | ⟨l', hl', ho⟩ := hb
      · exact .inl (by rw [hb, totalSize, Nat.add_assoc])
      · exact .inr ⟨l', List.mem_cons_of_mem _ hl', ho⟩
  | branch t e rest iht ihe ih =>
    obtain ⟨⟨hft, hfe, -⟩, hfr⟩ := h
    have hend : position + totalSize (.branch t e :: rest) =
        position + 3 + totalSize t + 3 + totalSize e + totalSize rest := by
      simp only [totalSize, size]
      omega
    have hs := Piece.add_size_branch position t e
    rw [hs] at hfr
    -- boundaries of the parts are boundaries of the whole
    have hrest {offset : Nat}
        (hb : IsBoundary (position + 3 + totalSize t + 3 + totalSize e) rest offset) :
        IsBoundary position (.branch t e :: rest) offset := by
      obtain hb | ⟨l, hl, ho⟩ := hb
      · exact .inl (hb.trans hend.symm)
      · refine .inr ⟨l, ?_, ho⟩
        rw [locateAll_branch]
        simp [hl]
    have halt {offset : Nat} (hb : IsBoundary (position + 3 + totalSize t + 3) e offset) :
        IsBoundary position (.branch t e :: rest) offset := by
      obtain rfl | ⟨l, hl, ho⟩ := hb
      · exact hrest (isBoundary_start hfr)
      · refine .inr ⟨l, ?_, ho⟩
        rw [locateAll_branch]
        simp [hl]
    have hcons {offset : Nat} (hb : IsBoundary (position + 3) t offset) :
        IsBoundary position (.branch t e :: rest) offset := by
      obtain rfl | ⟨l, hl, ho⟩ := hb
      · refine .inr ⟨⟨_, jumpPast (position + 3 + totalSize t) (totalSize e)⟩, ?_, rfl⟩
        rw [locateAll_branch]
        simp
      · refine .inr ⟨l, ?_, ho⟩
        rw [locateAll_branch]
        simp [hl]
    intro l hl target ht
    rw [locateAll_branch] at hl
    simp only [List.mem_cons, List.mem_append] at hl
    obtain rfl | hl | rfl | hl | hl := hl
    · obtain rfl : position + 3 + totalSize t + 3 = target := Option.some.inj ht
      exact ⟨by dsimp only; omega, halt (isBoundary_start hfe)⟩
    · obtain ⟨hlt, hb⟩ := iht hft l hl target ht
      exact ⟨hlt, hcons hb⟩
    · obtain rfl : position + 3 + totalSize t + 3 + totalSize e = target := Option.some.inj ht
      exact ⟨by dsimp only; omega, hrest (isBoundary_start hfr)⟩
    · obtain ⟨hlt, hb⟩ := ihe hfe l hl target ht
      exact ⟨hlt, halt hb⟩
    · obtain ⟨hlt, hb⟩ := ih hfr l hl target ht
      exact ⟨hlt, hrest hb⟩
  | skip rest ih => exact absurd h.1 id

/-- Instructions lie within the code. -/
theorem offset_bounds {position : Nat} {ps : List Piece} :
    ∀ l ∈ locateAll position ps,
      position ≤ l.offset ∧ l.offset + l.instruction.size ≤ position + totalSize ps := by
  induction ps using list_induction generalizing position with
  | nil => exact List.forall_mem_nil _
  | ins i rest ih =>
    intro l hl
    rw [totalSize, size]
    obtain rfl | hl := List.mem_cons.mp hl
    · dsimp only
      omega
    · have := ih l hl
      simp only [size] at this
      omega
  | branch t e rest iht ihe ih =>
    intro l hl
    rw [locateAll_branch] at hl
    simp only [List.mem_cons, List.mem_append] at hl
    have hsize : totalSize (.branch t e :: rest) =
        3 + totalSize t + (3 + totalSize e) + totalSize rest := by
      simp only [totalSize, size]
    rw [hsize]
    obtain rfl | hl | rfl | hl | hl := hl
    · have : (jumpOver position (totalSize t)).size = 3 := rfl
      dsimp only
      omega
    · have := iht l hl
      omega
    · have : (jumpPast (position + 3 + totalSize t) (totalSize e)).size = 3 := rfl
      dsimp only
      omega
    · have := ihe l hl
      omega
    · have := ih l hl
      omega
  | skip rest ih =>
    intro l hl
    have := ih l hl
    simp only [totalSize, size] at this ⊢
    omega

/-- Code that is empty or has a plain instruction at its end. -/
def EndsPlain (ps : List Piece) : Prop := ps = [] ∨ ∃ qs i, ps = qs ++ [.ins i]

/-- Where a plain instruction stands last, no jump goes to the end. -/
theorem EndsPlain.target {ps : List Piece} (h : EndsPlain ps) (hf : Fits 0 ps) :
    ∀ l ∈ locateAll 0 ps, ∀ target, l.instruction.target? = some target →
      l.offset < target ∧ target < totalSize ps ∧ ∃ l' ∈ locateAll 0 ps, l'.offset = target := by
  obtain rfl | ⟨qs, i, rfl⟩ := h
  · exact List.forall_mem_nil _
  · obtain ⟨hq, ⟨hp, -⟩, -⟩ := fits_append.mp hf
    have hlast : locateAll 0 (qs ++ [.ins i]) = locateAll 0 qs ++ [⟨0 + totalSize qs, i⟩] :=
      locateAll_append 0 qs [.ins i]
    have hsize : totalSize (qs ++ [.ins i]) = totalSize qs + i.size := totalSize_append ..
    have hpos : 0 < i.size := i.op.size_pos
    intro l hl target ht
    rw [hlast, List.mem_append, List.mem_singleton] at hl
    obtain hl | rfl := hl
    · obtain ⟨hlt, hb⟩ := target_isBoundary hq l hl target ht
      refine ⟨hlt, ?_, ?_⟩
      · obtain rfl | ⟨l', hl', rfl⟩ := hb
        · omega
        · have := (offset_bounds l' hl').2
          omega
      · rw [hlast]
        obtain rfl | ⟨l', hl', ho⟩ := hb
        · exact ⟨_, List.mem_append_right _ (List.mem_singleton_self _), rfl⟩
        · exact ⟨l', List.mem_append_left _ hl', ho⟩
    · rw [Instruction.target?_of_isPlain hp] at ht
      cases ht

end Piece

namespace Code

open Piece

variable {code : Code}

theorem listingFrom_of_fetch? {offset : Nat} {i : Instruction} (h : code.fetch? offset = some i)
    (items : Array Located) :
    code.listingFrom offset items = code.listingFrom (offset + i.size) (items.push ⟨offset, i⟩) := by
  obtain ⟨b, hb, -⟩ := fetch?_eq_some h
  have hlt := (Array.getElem?_eq_some_iff.mp hb).1
  rw [listingFrom, dif_pos hlt, decode_of_fetch? h hlt]

/-- Laid out code is read piece by piece. -/
theorem listingFrom_layout {position : Nat} {ps : List Piece}
    (h : code.Holds position (layout position ps)) (hf : Fits position ps)
    (items : Array Located) :
    code.listingFrom position items =
      code.listingFrom (position + totalSize ps) (items ++ (locateAll position ps).toArray) := by
  induction ps using list_induction generalizing position items with
  | nil => simp [totalSize, locateAll]
  | ins i rest ih =>
    obtain ⟨⟨-, hi⟩, hr⟩ := hf
    have hl := hi.length_bytes
    rw [layout, bytes] at h
    have hn := h.right
    rw [hl] at hn
    rw [listingFrom_of_fetch? (h.left.fetch? hi), ih hn hr, totalSize, locateAll, locate, size,
      Nat.add_assoc]
    simp
  | branch t e rest iht ihe ih =>
    obtain ⟨hj, ht, hj', he, hr⟩ := Follows.holds_branch h hf
    have hs := Piece.add_size_branch position t e
    obtain ⟨⟨hft, hfe, -⟩, hfr⟩ := hf
    rw [hs] at hfr
    rw [listingFrom_of_fetch? hj, show position + (jumpOver position (totalSize t)).size =
      position + 3 from rfl, iht ht hft, listingFrom_of_fetch? hj',
      show position + 3 + totalSize t + (jumpPast (position + 3 + totalSize t)
        (totalSize e)).size = position + 3 + totalSize t + 3 from rfl, ihe he hfe, ih hr hfr,
      locateAll_branch, totalSize, ← Nat.add_assoc, hs]
    simp
  | skip rest ih => exact absurd hf.1 id

/-- Laid out code is read to its end. -/
theorem listing_layout {ps : List Piece} (hf : Fits 0 ps) :
    listing (layout 0 ps).toArray = ⟨(locateAll 0 ps).toArray, none⟩ := by
  have hholds : Holds (layout 0 ps).toArray 0 (layout 0 ps) := ⟨[], [], rfl, by simp⟩
  have hend : ¬ 0 + totalSize ps < Array.size (layout 0 ps).toArray := by
    rw [List.size_toArray, length_layout hf]
    omega
  rw [listing, listingFrom_layout hholds hf, listingFrom, dif_neg hend]
  simp

end Code

end ClosureVM
