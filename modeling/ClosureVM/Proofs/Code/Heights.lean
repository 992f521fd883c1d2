import ClosureVM.Proofs.Code.Boundaries
import ClosureVM.Proofs.Code.Checking

/-! How high the stack of a call is at every offset of its code. -/
namespace ClosureVM

namespace Instruction

/-- How many values an instruction takes off the stack. -/
def pops (i : Instruction) : Nat :=
  match i.op with
  | .add | .sub | .mul | .div | .equal | .notEqual | .greaterThan | .index => 2
  | .pop | .bang | .minus | .jumpNotTruthy | .setGlobal | .setLocal | .returnValue => 1
  | .array | .hash => i.operands.getD 0 0
  | .call => i.operands.getD 0 0 + 1
  | .closure => i.operands.getD 1 0
  | .constant | .pushTrue | .pushFalse | .pushNull | .jump | .getGlobal | .getLocal | .getBuiltin
  | .getFree | .currentClosure | .returnNull => 0

/-- How many values an instruction puts on the stack. For a call, that is what its callee gives
back. -/
def pushes (i : Instruction) : Nat :=
  match i.op with
  | .pop | .jump | .jumpNotTruthy | .setGlobal | .setLocal | .returnValue | .returnNull => 0
  | .constant | .add | .sub | .mul | .div | .pushTrue | .pushFalse | .pushNull | .equal | .notEqual
  | .greaterThan | .minus | .bang | .getGlobal | .getLocal | .getBuiltin | .getFree
  | .currentClosure | .array | .hash | .index | .call | .closure => 1

end Instruction

/-- What is required of heights at an instruction: its operands are on the stack, and the heights
behind it and where it jumps are what it leaves. A return is taken to go on behind it, too. -/
structure Located.Agrees (height : Nat → Nat) (l : Located) : Prop where
  finds : l.instruction.pops ≤ height l.offset
  onward : l.instruction.op ≠ .jump → height (l.offset + l.instruction.size) =
    height l.offset - l.instruction.pops + l.instruction.pushes
  jumps : ∀ target, l.instruction.target? = some target →
    height target = height l.offset - l.instruction.pops + l.instruction.pushes

/-- A plain instruction has nothing but what follows it. -/
theorem Located.agrees_of_isPlain {height : Nat → Nat} {offset : Nat} {i : Instruction}
    (hp : i.op.isPlain) (hf : i.pops ≤ height offset)
    (ho : height (offset + i.size) = height offset - i.pops + i.pushes) :
    Agrees height ⟨offset, i⟩ where
  finds := hf
  onward _ := ho
  jumps target ht := by
    rw [Instruction.target?_of_isPlain hp] at ht
    cases ht

namespace Code

/-- The listing has the instruction at the offset. -/
def Shows (code : Code) (offset : Nat) (i : Instruction) : Prop := ⟨offset, i⟩ ∈ code.listing.items

/-- The heights agree with the instructions from `lo` up to `hi`. -/
def Steady (code : Code) (height : Nat → Nat) (lo hi : Nat) : Prop :=
  ∀ l ∈ code.listing.items, lo ≤ l.offset → l.offset < hi → l.Agrees height

/-- The instructions from `lo` up to `hi` lead no further than to `hi`. -/
def Encloses (code : Code) (lo hi : Nat) : Prop :=
  ∀ l ∈ code.listing.items, lo ≤ l.offset → l.offset < hi →
    l.offset + l.instruction.size ≤ hi ∧
      ∀ target, l.instruction.target? = some target → lo ≤ target ∧ target ≤ hi

/-- Code that passes verification with the given heights of the stack. -/
structure Verified (code : Code) (height : Nat → Nat) : Prop where
  reads : code.listing.error = none
  start : height 0 = 0
  agrees : ∀ l ∈ code.listing.items, l.Agrees height
  finish : height code.size = 0

variable {code : Code} {lo mid hi : Nat} {height height' : Nat → Nat}

theorem le_offset_of_mem_located {offset : Nat} {is : List Instruction} :
    ∀ l ∈ Instruction.located offset is, offset ≤ l.offset := by
  induction is generalizing offset with
  | nil => exact List.forall_mem_nil _
  | cons i is ih =>
    intro l hl
    rcases List.mem_cons.mp hl with rfl | hl
    · exact Nat.le_refl _
    · have := ih l hl
      omega

theorem offset_lt_size (hr : code.listing.error = none) {l : Located}
    (hl : l ∈ code.listing.items) : l.offset < code.size := by
  obtain ⟨is, he, hs⟩ := listing_error_eq_none_iff.mp hr
  rw [listing_eq he hs, List.mem_toArray] at hl
  have hsize : code.size = 0 + (Instruction.stream is).length := by
    rw [← Array.length_toList, hs, Nat.zero_add]
  rw [hsize]
  clear hs hsize
  generalize 0 = offset at hl
  induction is generalizing offset with
  | nil => cases hl
  | cons i is ih =>
    obtain ⟨hi, he⟩ := List.forall_mem_cons.mp he
    have hpos : 0 < i.size := i.op.size_pos
    have hlen :
        (Instruction.stream (i :: is)).length = i.size + (Instruction.stream is).length := by
      rw [Instruction.stream, List.flatMap_cons, List.length_append, hi.length_bytes]
      rfl
    rcases List.mem_cons.mp hl with rfl | hl
    · dsimp only
      omega
    · have := ih he _ hl
      omega

/-- No listed instruction starts within another. -/
theorem Shows.unique (hr : code.listing.error = none) {i : Instruction} (hi : code.Shows lo i)
    {l : Located} (hl : l ∈ code.listing.items) (h₁ : lo ≤ l.offset) (h₂ : l.offset < lo + i.size) :
    l = ⟨lo, i⟩ := by
  obtain ⟨is, he, hs⟩ := listing_error_eq_none_iff.mp hr
  rw [Shows, listing_eq he hs, List.mem_toArray] at hi
  rw [listing_eq he hs, List.mem_toArray] at hl
  clear he hs
  generalize 0 = offset at hi hl
  induction is generalizing offset with
  | nil => cases hl
  | cons j is ih =>
    have hpos := j.op.size_pos
    have hsize : j.size = j.op.size := rfl
    rcases List.mem_cons.mp hi with heq | hi <;> rcases List.mem_cons.mp hl with rfl | hl
    · exact heq.symm
    · cases heq
      have := le_offset_of_mem_located l hl
      omega
    · have := le_offset_of_mem_located _ hi
      dsimp only at this h₁
      omega
    · exact ih _ hi hl

/-- Heights elsewhere do not matter. -/
theorem Steady.congr (h : code.Steady height lo hi) (he : code.Encloses lo hi)
    (heq : ∀ x, lo ≤ x → x ≤ hi → height' x = height x) : code.Steady height' lo hi := by
  intro l hl h₁ h₂
  obtain ⟨hnext, htargets⟩ := he l hl h₁ h₂
  have hl' := h l hl h₁ h₂
  have hstart : height' l.offset = height l.offset := heq _ h₁ (by omega)
  constructor
  · rw [hstart]
    exact hl'.finds
  · intro hop
    rw [hstart, heq _ (by omega) hnext]
    exact hl'.onward hop
  · intro target ht
    have hbounds := htargets target ht
    rw [hstart, heq _ hbounds.1 hbounds.2]
    exact hl'.jumps target ht

theorem Steady.mono (h : code.Steady height lo hi) {lo' hi' : Nat} (h₁ : lo ≤ lo') (h₂ : hi' ≤ hi) :
    code.Steady height lo' hi' :=
  fun l hl hlo hhi => h l hl (Nat.le_trans h₁ hlo) (Nat.lt_of_lt_of_le hhi h₂)

theorem steady_nil (code : Code) (height : Nat → Nat) (lo : Nat) : code.Steady height lo lo :=
  fun _ _ h₁ h₂ => absurd h₂ (Nat.not_lt.mpr h₁)

theorem encloses_nil (code : Code) (lo : Nat) : code.Encloses lo lo :=
  fun _ _ h₁ h₂ => absurd h₂ (Nat.not_lt.mpr h₁)

theorem Encloses.append (h₁ : code.Encloses lo mid) (h₂ : code.Encloses mid hi) (hl : lo ≤ mid)
    (hm : mid ≤ hi) : code.Encloses lo hi := by
  intro l hmem hlo hhi
  by_cases hlt : l.offset < mid
  · obtain ⟨hnext, htargets⟩ := h₁ l hmem hlo hlt
    refine ⟨by omega, fun target ht => ?_⟩
    have := htargets target ht
    omega
  · obtain ⟨hnext, htargets⟩ := h₂ l hmem (by omega) hhi
    refine ⟨hnext, fun target ht => ?_⟩
    have := htargets target ht
    omega

/-- A plain instruction by itself leads to what follows it. -/
theorem Shows.encloses (hr : code.listing.error = none) {i : Instruction} (hi : code.Shows lo i)
    (hp : i.op.isPlain) : code.Encloses lo (lo + i.size) := by
  intro l hl h₁ h₂
  rw [hi.unique hr hl h₁ h₂]
  refine ⟨Nat.le_refl _, fun target ht => ?_⟩
  rw [Instruction.target?_of_isPlain hp] at ht
  cases ht

/-- Heights for two ranges that meet in the same height are heights for both. -/
theorem Steady.append {first second : Nat → Nat} (h₁ : code.Steady first lo mid)
    (h₂ : code.Steady second mid hi) (he₁ : code.Encloses lo mid) (he₂ : code.Encloses mid hi)
    (heq : first mid = second mid) :
    ∃ height, (∀ x, x ≤ mid → height x = first x) ∧ code.Steady height lo hi := by
  let height (x : Nat) : Nat := if x ≤ mid then first x else second x
  have hfirst (x : Nat) (hx : x ≤ mid) : height x = first x := if_pos hx
  have hsecond (x : Nat) (hx : mid ≤ x) : height x = second x := by
    rcases Nat.eq_or_lt_of_le hx with rfl | hlt
    · exact (hfirst mid (Nat.le_refl _)).trans heq
    · exact if_neg (Nat.not_le.mpr hlt)
  refine ⟨height, hfirst, fun l hl hlo hhi => ?_⟩
  by_cases hlt : l.offset < mid
  · exact h₁.congr he₁ (fun x _ hx => hfirst x hx) l hl hlo hlt
  · exact h₂.congr he₂ (fun x hx _ => hsecond x hx) l hl (by omega) hhi

/-- Heights around a plain instruction by itself. -/
theorem Shows.steady (hr : code.listing.error = none) {i : Instruction} (hi : code.Shows lo i)
    (hp : i.op.isPlain) {b : Nat} (hb : i.pops ≤ b) :
    ∃ height, height lo = b ∧ height (lo + i.size) = b - i.pops + i.pushes ∧
      code.Steady height lo (lo + i.size) := by
  have hpos : 0 < i.size := i.op.size_pos
  let height (x : Nat) : Nat := if x ≤ lo then b else b - i.pops + i.pushes
  have hstart : height lo = b := if_pos (Nat.le_refl _)
  have hend : height (lo + i.size) = b - i.pops + i.pushes := if_neg (by omega)
  refine ⟨height, hstart, hend, fun l hl h₁ h₂ => ?_⟩
  rw [hi.unique hr hl h₁ h₂]
  apply Located.agrees_of_isPlain hp
  · rwa [hstart]
  · rw [hstart, hend]

section Choice

variable {c : Nat} (hr : code.listing.error = none)
  (hj : code.Shows lo ⟨.jumpNotTruthy, [c + 3]⟩) (hj' : code.Shows c ⟨.jump, [mid]⟩)
include hr hj hj'

/-- What is listed in a choice is the jump into it, in its first part, the jump out of that, or in
its second part. -/
theorem choice_cases {motive : Located → Prop} (hinto : motive ⟨lo, ⟨.jumpNotTruthy, [c + 3]⟩⟩)
    (hfirst : ∀ l ∈ code.listing.items, lo + 3 ≤ l.offset → l.offset < c → motive l)
    (hout : motive ⟨c, ⟨.jump, [mid]⟩⟩)
    (hsecond : ∀ l ∈ code.listing.items, c + 3 ≤ l.offset → l.offset < mid → motive l) :
    ∀ l ∈ code.listing.items, lo ≤ l.offset → l.offset < mid → motive l := by
  intro l hl h₁ h₂
  by_cases hlt₁ : l.offset < lo + 3
  · rw [hj.unique hr hl h₁ hlt₁]
    exact hinto
  by_cases hlt₂ : l.offset < c
  · exact hfirst l hl (by omega) hlt₂
  by_cases hlt₃ : l.offset < c + 3
  · rw [hj'.unique hr hl (by omega) hlt₃]
    exact hout
  · exact hsecond l hl (by omega) h₂

variable (he₁ : code.Encloses (lo + 3) c) (he₂ : code.Encloses (c + 3) mid) (hc : lo + 3 ≤ c)
  (hm : c + 3 ≤ mid)
include he₁ he₂ hc hm

/-- A choice leads to its end, by its jumps too. -/
theorem encloses_choice : code.Encloses lo mid := by
  unfold Encloses
  refine choice_cases hr hj hj' ?_ ?_ ?_ ?_
  · refine ⟨show lo + 3 ≤ mid by omega, fun target ht => ?_⟩
    cases ht
    omega
  · intro l hl h₁ h₂
    obtain ⟨hnext, htargets⟩ := he₁ l hl h₁ h₂
    refine ⟨by omega, fun target ht => ?_⟩
    have := htargets target ht
    omega
  · refine ⟨hm, fun target ht => ?_⟩
    cases ht
    omega
  · intro l hl h₁ h₂
    obtain ⟨hnext, htargets⟩ := he₂ l hl h₁ h₂
    refine ⟨hnext, fun target ht => ?_⟩
    have := htargets target ht
    omega

/-- Heights for both parts of a choice that start one lower, and end as high as the choice starts,
are heights for the choice. -/
theorem steady_choice {first second : Nat → Nat} (h₁ : code.Steady first (lo + 3) c)
    (h₂ : code.Steady second (c + 3) mid) (hfirst : first c = first (lo + 3) + 1)
    (hsecond : second mid = second (c + 3) + 1) (heq : first (lo + 3) = second (c + 3)) :
    ∃ height, height lo = first c ∧ height mid = first c ∧ code.Steady height lo mid := by
  let height (x : Nat) : Nat :=
    if x < lo + 3 then first c else if x < c + 3 then first x else second x
  have hinto : height lo = first c := if_pos (by omega)
  have hin₁ (x : Nat) (hx₁ : lo + 3 ≤ x) (hx₂ : x ≤ c) : height x = first x :=
    (if_neg (by omega)).trans (if_pos (by omega))
  have hin₂ (x : Nat) (hx₁ : c + 3 ≤ x) (_ : x ≤ mid) : height x = second x :=
    (if_neg (by omega)).trans (if_neg (by omega))
  have hmid : height mid = first c := by
    rw [hin₂ mid hm (Nat.le_refl _)]
    omega
  refine ⟨height, hinto, hmid, choice_cases hr hj hj' ?_ ?_ ?_ ?_⟩
  · constructor
    · show 1 ≤ height lo
      omega
    · intro _
      show height (lo + 3) = height lo - 1 + 0
      rw [hin₁ (lo + 3) (Nat.le_refl _) hc]
      omega
    · intro target ht
      cases ht
      show height (c + 3) = height lo - 1 + 0
      rw [hin₂ (c + 3) (Nat.le_refl _) hm]
      omega
  · exact fun l hl => h₁.congr he₁ hin₁ l hl
  · constructor
    · exact Nat.zero_le _
    · exact fun hop => absurd rfl hop
    · intro target ht
      cases ht
      show height mid = height c - 0 + 0
      rw [hin₁ c hc (Nat.le_refl _)]
      omega
  · exact fun l hl => h₂.congr he₂ hin₂ l hl

end Choice

end Code

section Checked

variable {pool pool' : Array Value} {sh sh' : Shape} {i : Instruction} {rest : List Piece}

theorem Instruction.Uses.effect {pops pushes : Nat} (h : i.Uses pool sh pops pushes) :
    i.pops = pops ∧ i.pushes = pushes := by
  cases h with
  | @binary op hop | @unary op hop | @nullary op hop =>
    cases op <;> first | exact ⟨rfl, rfl⟩ | cases hop
  | _ => exact ⟨rfl, rfl⟩

theorem Piece.Checked.of_ins {h h' : Nat} (hc : Checked pool sh h (.ins i :: rest) h') :
    ∃ b, h = b + i.pops ∧ Checked pool sh (b + i.pushes) rest h' := by
  cases hc with
  | ins hu hr =>
    obtain ⟨rfl, rfl⟩ := hu.effect
    exact ⟨_, rfl, hr⟩
  | closure _ _ _ _ _ _ hr => exact ⟨_, rfl, hr⟩

/-- How high the stack is where checked code goes on, is settled by the place alone. -/
theorem Follows.height_unique {code : Code} {ip h h' e : Nat} {ps qs : List Piece}
    (hp : Follows code ip ps) (hq : Follows code ip qs) (hc : Piece.Checked pool sh h ps e)
    (hc' : Piece.Checked pool' sh' h' qs e) : h = h' := by
  induction hp generalizing qs h h' with
  | done =>
    cases qs with
    | nil => exact hc.height_nil.trans hc'.height_nil.symm
    | cons q qs => exact absurd hq.lt_size (Nat.lt_irrefl _)
  | @ins ip i rest hi hplain hrest ih =>
    cases hq with
    | done => exact absurd (Follows.ins hi hplain hrest).lt_size (Nat.lt_irrefl _)
    | ins hi' _ hrest' =>
      rw [hi] at hi'
      cases hi'
      obtain ⟨b, rfl, hr⟩ := hc.of_ins
      obtain ⟨b', rfl, hr'⟩ := hc'.of_ins
      have := ih hrest' hr hr'
      omega
    | branch hi' _ _ _ | skip hi' _ _ =>
      rw [hi] at hi'
      cases hi'
      cases hplain
  | branch hj hle ht he _ ih =>
    -- the way over the second part is enough
    cases hq with
    | done => exact absurd (Follows.branch hj hle ht he).lt_size (Nat.lt_irrefl _)
    | ins hi' hplain _ =>
      rw [hj] at hi'
      cases hi'
      cases hplain
    | branch hj' _ _ he' =>
      rw [hj] at hj'
      cases hj'
      cases hc with
      | branch _ hsecond hr =>
        cases hc' with
        | branch _ hsecond' hr' =>
          have := ih he' (hsecond.append hr) (hsecond'.append hr')
          omega
    | skip hj' _ _ =>
      rw [hj] at hj'
      cases hj'
  | skip hj hle hr ih =>
    cases hq with
    | done => exact absurd (Follows.skip hj hle hr).lt_size (Nat.lt_irrefl _)
    | ins hi' hplain _ =>
      rw [hj] at hi'
      cases hi'
      cases hplain
    | branch hj' _ _ _ =>
      rw [hj] at hj'
      cases hj'
    | skip hj' _ hr' =>
      rw [hj] at hj'
      cases hj'
      cases hc with
      | skip hc =>
        cases hc' with
        | skip hc' => exact ih hr' hc hc'

end Checked

end ClosureVM
