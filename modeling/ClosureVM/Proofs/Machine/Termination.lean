import ClosureVM.Proofs.Machine.Runs
import ClosureVM.Proofs.Machine.Typing

/-! Runs of checked code end: every step uses up code of a call, and a call brings new code only
where the number of calls is below its limit. -/
namespace ClosureVM

namespace Piece

mutual

/-- How many steps a piece can take in its own call. -/
def weight : Piece → Nat
  | .ins _ | .skip => 1
  | .branch t e => 2 + totalWeight t + totalWeight e

def totalWeight : List Piece → Nat
  | [] => 0
  | p :: rest => p.weight + totalWeight rest

end

theorem totalWeight_append (ps qs : List Piece) :
    totalWeight (ps ++ qs) = totalWeight ps + totalWeight qs := by
  induction ps with
  | nil => rw [List.nil_append, totalWeight, Nat.zero_add]
  | cons p ps ih => rw [List.cons_append, totalWeight, totalWeight, ih, Nat.add_assoc]

end Piece

/-- The code left in nested calls, innermost first. Code of a caller counts more than all that a
call from there can bring. -/
def potential (base depth : Nat) : List Activation → Nat
  | [] => 0
  | a :: callers =>
    Piece.totalWeight a.code * base ^ (depth - callers.length) + potential base depth callers

theorem potential_lt {base depth : Nat} (hb : 0 < base) {a b : Activation}
    {callers : List Activation} (h : Piece.totalWeight b.code < Piece.totalWeight a.code) :
    potential base depth (b :: callers) < potential base depth (a :: callers) := by
  have hpow : 0 < base ^ (depth - callers.length) := Nat.pow_pos hb
  have hmul := Nat.mul_lt_mul_of_pos_right h hpow
  simp only [potential]
  omega

/-- A call costs its caller more than it brings. -/
theorem potential_enter_lt {base depth : Nat} {a b new : Activation} {callers : List Activation}
    (hn : Piece.totalWeight new.code < base) (hd : callers.length + 1 < depth)
    (h : Piece.totalWeight b.code < Piece.totalWeight a.code) :
    potential base depth (new :: b :: callers) < potential base depth (a :: callers) := by
  obtain ⟨k, hk⟩ : ∃ k, depth = callers.length + 1 + k := ⟨depth - (callers.length + 1), by omega⟩
  have h₁ : depth - (b :: callers).length = k := by
    rw [List.length_cons]
    omega
  have h₂ : depth - callers.length = k + 1 := by omega
  have hpow : 0 < base ^ k := Nat.pow_pos (by omega)
  have hnew : Piece.totalWeight new.code * base ^ k < base ^ (k + 1) := by
    rw [Nat.pow_succ, Nat.mul_comm (base ^ k)]
    exact Nat.mul_lt_mul_of_pos_right hn hpow
  have hold : (Piece.totalWeight b.code + 1) * base ^ (k + 1) ≤
      Piece.totalWeight a.code * base ^ (k + 1) := Nat.mul_le_mul_right _ h
  rw [Nat.add_mul, Nat.one_mul] at hold
  simp only [potential, h₁, h₂]
  omega

namespace Config

variable {c c' : Config}

def potential (base : Nat) (c : Config) : Nat :=
  ClosureVM.potential base c.limits.maxFrames.toNat (c.current :: c.callers)

/-- Every step lowers the potential, if no function that can be called is too long. -/
theorem Next.potential_lt {base : Nat} (h : c.Next c') (hb : 0 < base)
    (hcallees : ∀ id proto free body, .closure id proto free ∈ c.current.temps →
      proto.body? = some body → Piece.totalWeight body < base) :
    c'.potential base < c.potential base := by
  have hlimits := h.keeps.2.1
  unfold Config.potential
  rw [hlimits]
  unfold Next step at h
  split at h
  · cases h
  · rename_i i rest hcode
    have hrest : Piece.totalWeight rest < Piece.totalWeight c.current.code := by
      rw [hcode, Piece.totalWeight, Piece.weight]
      omega
    cases (execute_shape (c.withCode rest) _ _ _).moves h with
    | stays hs =>
      have hcallers : c'.callers = c.callers := hs.callers
      have hc : c'.current.code = rest := hs.code
      rw [hcallers]
      exact ClosureVM.potential_lt hb (hc ▸ hrest)
    | enters hmem hbody _ hcallers hframes _ =>
      rw [hcallers]
      have hd : c.callers.length + 1 < c.limits.maxFrames.toNat := by
        change (c.callers.length + 1 : Int) < c.limits.maxFrames at hframes
        omega
      exact potential_enter_lt (hcallees _ _ _ _ hmem hbody) hd hrest
    | @leaves caller hcallers _ hc _ =>
      have hcallers' : c.callers = caller :: c'.callers := hcallers
      have hpow : 0 < base ^ (c.limits.maxFrames.toNat - c.callers.length) := Nat.pow_pos hb
      have hpos : 0 < Piece.totalWeight c.current.code := by omega
      have hmul := Nat.mul_pos hpos hpow
      simp only [ClosureVM.potential, hcallers', hc] at hmul ⊢
      omega
  · rename_i t e rest hcode
    split at h
    · cases h
      refine ClosureVM.potential_lt hb ?_
      simp only [withCode, hcode, Piece.totalWeight, Piece.weight]
      split
      · rw [Piece.totalWeight_append, Piece.totalWeight, Piece.weight]
        omega
      · rw [Piece.totalWeight_append]
        omega
    · cases h
  · rename_i rest hcode
    cases h
    refine ClosureVM.potential_lt hb ?_
    simp only [withCode, hcode, Piece.totalWeight, Piece.weight]
    omega

/-- The functions of a pool are of bounded length. -/
theorem exists_weight_lt (pool : Array Value) :
    ∃ base, 0 < base ∧ ∀ proto body, .function proto ∈ pool → proto.body? = some body →
      Piece.totalWeight body < base := by
  have hlist (values : List Value) :
      ∃ base, 0 < base ∧ ∀ proto body, .function proto ∈ values → proto.body? = some body →
        Piece.totalWeight body < base := by
    induction values with
    | nil => exact ⟨1, Nat.one_pos, fun _ _ h => nomatch h⟩
    | cons v values ih =>
      obtain ⟨base, hb, hrest⟩ := ih
      have hfirst : ∃ w, ∀ proto body, .function proto = v → proto.body? = some body →
          Piece.totalWeight body < w := by
        cases v with
        | function proto =>
          refine ⟨Piece.totalWeight (proto.body?.getD []) + 1, fun _ body hv hbody => ?_⟩
          cases hv
          rw [hbody]
          exact Nat.lt_succ_self _
        | _ => exact ⟨0, fun _ _ hv => nomatch hv⟩
      obtain ⟨w, hw⟩ := hfirst
      refine ⟨base + w, by omega, fun proto body hmem hbody => ?_⟩
      obtain hv | hmem := List.mem_cons.mp hmem
      · have := hw proto body hv hbody
        omega
      · have := hrest proto body hmem hbody
        omega
  obtain ⟨base, hb, h⟩ := hlist pool.toList
  exact ⟨base, hb, fun proto body hmem => h proto body (Array.mem_toList_iff.mpr hmem)⟩

/-- The run of a configuration with checked code ends. -/
theorem Typed.ends (hc : c.Typed fun _ => True) : ∃ r c', c.Ends r c' := by
  obtain ⟨base, hb, hpool⟩ := exists_weight_lt c.constants
  generalize hp : c.potential base = p
  generalize hk : c.constants = pool at hpool
  induction p using Nat.strongRecOn generalizing c with
  | ind p ih =>
    by_cases hne : c.current.code = []
    · exact ⟨_, _, .done hne⟩
    · have hsafe := hc.step hne (fun _ _ => trivial) fun v _ => by cases v <;> trivial
      cases hs : c.step with
      | stuck =>
        rw [hs] at hsafe
        exact absurd hsafe id
      | stop s c' => exact ⟨_, _, .stop hs⟩
      | next c' =>
        rw [hs] at hsafe
        have hlt : c'.potential base < p := by
          rw [← hp]
          refine Next.potential_lt hs hb fun id proto free body hmem hbody => ?_
          cases hc.current.temps _ hmem with
          | closure hin _ _ => exact hpool proto body (hk ▸ hin) hbody
        obtain ⟨r, c'', hends⟩ := ih _ hlt hsafe rfl ((Next.keeps hs).1.trans hk)
        exact ⟨r, c'', .next hs hends⟩

end Config

end ClosureVM
