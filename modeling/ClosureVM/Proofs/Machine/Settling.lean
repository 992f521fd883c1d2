import ClosureVM.Proofs.Code.Ordering
import ClosureVM.Proofs.Machine.Contents

/-! Globals are settled one after the other: those that have had their turn are never set again,
and no code reads any other. -/
namespace ClosureVM

open Piece

/-- A function that reads no globals but the first `n`, and binds none. -/
def Prototype.Reads (pool : Array Value) (n : Nat) (proto : Prototype) : Prop :=
  ∃ body, proto.HasBody body ∧ Ordered pool n body n

theorem Prototype.Reads.mono {pool pool' : Array Value} {n m : Nat} {proto : Prototype}
    (h : proto.Reads pool n) (hp : Extends pool pool') (hn : n ≤ m) : proto.Reads pool' m := by
  obtain ⟨body, hb, ho⟩ := h
  exact ⟨body, hb, (ho.mono hp).lift (Nat.le_refl _) hn⟩

/-- Calls, innermost first, that go on where `n` globals have had their turn. The program itself
may bind further ones, up to `total`. -/
def InTurn (pool : Array Value) (n total : Nat) : List Activation → Prop
  | [] => True
  | a :: callers =>
    (∃ m, Ordered pool n a.code m ∧ m ≤ if callers.isEmpty then total else n) ∧
      InTurn pool n total callers

theorem InTurn.le {pool : Array Value} {n total : Nat} {a : Activation}
    {callers : List Activation} (h : InTurn pool n total (a :: callers)) : n ≤ total := by
  induction callers generalizing a with
  | nil =>
    obtain ⟨⟨m, ho, hm⟩, -⟩ := h
    exact Nat.le_trans ho.le hm
  | cons b callers ih => exact ih h.2

/-- Globals from `n` on are `null`. -/
def Slots.Vacant (n : Nat) (s : Slots) : Prop := ∀ i v, n ≤ i → s.get? i = some v → v = .null

/-- The first `n` globals are the same. -/
def Slots.Same (n : Nat) (s s' : Slots) : Prop := ∀ i, i < n → s'.get? i = s.get? i

/-- The first `n` globals have had their turn, and no function that is at hand reads any
other. -/
structure Config.Settled (n total : Nat) (c : Config) : Prop where
  made : c.Made (Prototype.Reads c.constants n)
  inTurn : InTurn c.constants n total (c.current :: c.callers)
  vacant : c.globals.Vacant n

/-- What a step does to globals: one that is set has not had its turn before. -/
def Effect.Settles (c : Config) (n total : Nat) : Effect → Prop
  | .next c' => ∃ n', n ≤ n' ∧ c'.Settled n' total ∧ c.globals.Same n c'.globals ∧
    ∀ a rest, c.current.code = .op .setGlobal [a] :: rest → n ≤ a ∧ a < n'
  | .stop _ c' => c'.globals = c.globals
  | .stuck => True

namespace Config

variable {N : Int → Prop} {n total : Nat} {c c' : Config}

theorem Settled.getGlobal_lt (hs : c.Settled n total) {a : Nat} {rest : List Piece}
    (h : c.current.code = .op .getGlobal [a] :: rest) : a < n := by
  obtain ⟨⟨m, ho, -⟩, -⟩ := hs.inTurn
  rw [h] at ho
  cases ho with
  | ins hi => cases hi
  | getGlobal ha => exact ha

theorem Settled.setGlobal_eq (hs : c.Settled n total) {a : Nat} {rest : List Piece}
    (h : c.current.code = .op .setGlobal [a] :: rest) : a = n ∧ n < total := by
  obtain ⟨⟨m, ho, hm⟩, hrest⟩ := hs.inTurn
  rw [h] at ho
  cases ho with
  | ins hi => cases hi
  | setGlobal hr =>
    refine ⟨rfl, ?_⟩
    have hle := hr.le
    cases hc : c.callers with
    | nil =>
      rw [hc] at hm
      exact Nat.lt_of_lt_of_le hle hm
    | cons b callers =>
      rw [hc] at hm
      exact absurd (Nat.le_trans hle hm) (Nat.not_succ_le_self _)

/-- Where code goes on with more globals settled, it is the program's own. -/
theorem Settled.raise (hs : c.Settled n total) {code : List Piece} {n' m : Nat} (hn : n ≤ n')
    (ho : Ordered c.constants n' code m) (hm : m ≤ if c.callers.isEmpty then total else n)
    (temps : List Value) (ht : ∀ v ∈ temps, v ∈ c.current.temps) :
    ((c.withTemps temps).withCode code).Settled n' total := by
  have hmade := (hs.made.withTemps fun v hv => hs.made.current.temps v (ht v hv)).withCode code
  have hrest := hs.inTurn.2
  refine ⟨hmade.mono fun proto hp => hp.mono (.refl _) hn, ?_,
    fun i v hi hv => hs.vacant i v (Nat.le_trans hn hi) hv⟩
  cases hc : c.callers with
  | nil =>
    rw [hc] at hm
    refine ⟨⟨m, ho, ?_⟩, ?_⟩ <;> simp only [withCode, withTemps, hc]
    · exact hm
    · trivial
  | cons b callers =>
    rw [hc] at hm hrest
    have hle : m ≤ n := hm
    obtain rfl : n' = n := Nat.le_antisymm (Nat.le_trans ho.le hle) hn
    refine ⟨⟨m, ho, ?_⟩, ?_⟩ <;> simp only [withCode, withTemps, hc]
    · exact hm
    · exact hrest

/-- Calls are in turn behind an instruction, wherever it leads. -/
theorem InTurn.moves {s : Option Nat} (h : InTurn c.constants n total (c.current :: c.callers))
    (hmade : c.Made (Prototype.Reads c.constants n)) (hm : c.Moves s c') :
    InTurn c.constants n total (c'.current :: c'.callers) := by
  cases hm with
  | stays hstays =>
    rw [hstays.callers]
    refine ⟨?_, h.2⟩
    rw [hstays.code]
    exact h.1
  | @enters id proto free temps hmem hbody _ hcallers =>
    rw [hcallers]
    refine ⟨?_, h⟩
    cases hmade.current.temps _ hmem with
    | closure hreads _ =>
      obtain ⟨body, hb, ho⟩ := hreads
      rw [hb.body?_eq] at hbody
      cases hbody
      exact ⟨n, ho, Nat.le_refl n⟩
  | leaves hcallers _ hcode _ =>
    have hrest := h.2
    rw [hcallers] at hrest
    refine ⟨?_, hrest.2⟩
    rw [hcode]
    exact hrest.1

/-- An instruction that does not set a global leaves as many settled. -/
theorem Settled.execute {i : Instruction} {rest : List Piece} {m : Nat} (hs : c.Settled n total)
    (hcode : c.current.code = .ins i :: rest) (ho : Ordered c.constants n rest m)
    (hm : m ≤ if c.callers.isEmpty then total else n) (hop : i.op ≠ .setGlobal)
    (hconst : i.op = .constant → ∀ v, c.constants[i.operands.getD 0 0]? = some v →
      v.Made (Prototype.Reads c.constants n))
    (hclosure : i.op = .closure → ∀ proto, c.constants[i.operands.getD 0 0]? =
      some (.function proto) → proto.Reads c.constants n) : c.step.Settles c n total := by
  have hstep : c.step = (c.withCode rest).execute i.op (i.operands.getD 0 0)
      (i.operands.getD 1 0) := by
    unfold Config.step
    rw [hcode]
  have hmade := (hs.made.withCode rest).execute (b := i.operands.getD 1 0) hop hconst hclosure
  have hshape := execute_shape (c.withCode rest) i.op (i.operands.getD 0 0) (i.operands.getD 1 0)
  rw [← hstep] at hmade hshape
  cases he : c.step with
  | stuck => trivial
  | stop s c' =>
    rw [he] at hmade
    exact hmade.2
  | next c' =>
    rw [he] at hmade
    have hkeeps := c.step_keeps
    rw [he] at hkeeps
    have hconstants : c'.constants = c.constants := hkeeps.1
    have hglobals : c'.globals = c.globals := hmade.2
    refine ⟨n, Nat.le_refl n, ⟨?_, ?_, ?_⟩, fun i _ => by rw [hglobals], fun a rest' hset => ?_⟩
    · rw [hconstants]
      exact hmade.1
    · rw [hconstants]
      exact InTurn.moves (c := c.withCode rest) ⟨⟨m, ho, hm⟩, hs.inTurn.2⟩
        (hs.made.withCode rest) (hshape.moves he)
    · rw [hglobals]
      exact hs.vacant
    · rw [hcode] at hset
      cases hset
      exact absurd rfl hop

theorem Settled.setGlobal {rest : List Piece} {m : Nat} (hs : c.Settled n total)
    (hcode : c.current.code = .op .setGlobal [n] :: rest)
    (ho : Ordered c.constants (n + 1) rest m)
    (hm : m ≤ if c.callers.isEmpty then total else n) : c.step.Settles c n total := by
  have hstep : c.step = (c.withCode rest).execute .setGlobal n 0 := by
    unfold Config.step
    rw [hcode]
    rfl
  obtain hstuck | ⟨v, temps, htemps, hnext⟩ :=
    @execute_setGlobal_eq (c.withCode rest) n 0
  · rw [hstep, hstuck]
    trivial
  · rw [hstep, hnext]
    have ht : c.current.temps = v :: temps := htemps
    obtain ⟨hv, -⟩ := hs.made.uncons ht
    have hraised := hs.raise (Nat.le_succ n) ho hm temps
      fun u hu => ht ▸ List.mem_cons_of_mem v hu
    refine ⟨n + 1, Nat.le_succ n, ⟨⟨?_, hraised.made.2, hraised.made.3, hraised.made.4⟩,
      hraised.inTurn, fun i u hi hu => ?_⟩, fun i hi => ?_, fun a rest' hset => ?_⟩
    · intro i u hu
      exact (hs.made.setGlobal n hv i u hu).mono fun proto hp => hp.mono (.refl _) (Nat.le_succ n)
    · change (c.globals.set n v).get? i = some u at hu
      rw [Slots.get?_set, if_neg fun h => by omega] at hu
      exact hs.vacant i u (by omega) hu
    · change (c.globals.set n v).get? i = c.globals.get? i
      rw [Slots.get?_set, if_neg fun h => by omega]
    · rw [hcode] at hset
      cases hset
      exact ⟨Nat.le_refl n, Nat.lt_succ_self n⟩

/-- Every step of a typed configuration leaves settled what is settled. -/
theorem Settled.step (hs : c.Settled n total) (ht : c.Typed N) : c.step.Settles c n total := by
  obtain ⟨⟨m, ho, hm⟩, -⟩ := hs.inTurn
  cases hcode : c.current.code with
  | nil =>
    unfold Config.step
    rw [hcode]
    trivial
  | cons p rest =>
    rw [hcode] at ho
    cases ho with
    | @ins i _ _ _ hi hr =>
      refine hs.execute hcode hr hm ?_ ?_ ?_
      · intro hop
        rw [hop] at hi
        cases hi
      · exact fun hop v hv => ht.made_constant hcode hop hv
      · intro hop
        rw [hop] at hi
        cases hi
    | getGlobal _ hr => exact hs.execute hcode hr hm nofun nofun nofun
    | setGlobal hr => exact hs.setGlobal hcode hr hm
    | closure ha hb hbody hr =>
      refine hs.execute hcode hr hm nofun nofun fun _ proto hp => ?_
      rw [List.getD_cons_zero, ha] at hp
      cases hp
      exact ⟨_, hb, hbody⟩
    | @branch _ n₁ n₂ _ t e' _ htrue hfalse hr =>
      unfold Config.step
      rw [hcode]
      dsimp only
      split
      · rename_i v temps htemps
        have hmem : ∀ u ∈ temps, u ∈ c.current.temps :=
          fun u hu => htemps ▸ List.mem_cons_of_mem v hu
        split
        · have hthen := htrue.append (.skip hfalse.le hr)
          exact ⟨n, Nat.le_refl n, hs.raise (Nat.le_refl n) hthen hm temps hmem, fun _ _ => rfl,
            fun a rest' hset => by rw [hcode] at hset; cases hset⟩
        · exact ⟨n₁, htrue.le, hs.raise htrue.le (hfalse.append hr) hm temps hmem,
            fun _ _ => rfl,
            fun a rest' hset => by rw [hcode] at hset; cases hset⟩
      · trivial
    | @skip _ n₁ _ _ hn hr =>
      unfold Config.step
      rw [hcode]
      refine ⟨n₁, hn, ?_, fun _ _ => rfl, fun a rest' hset => by rw [hcode] at hset; cases hset⟩
      exact hs.raise hn hr hm c.current.temps fun _ hu => hu

end Config

end ClosureVM
