import ClosureVM.Proofs.Code.Binding
import ClosureVM.Proofs.Machine.Contents
import ClosureVM.Proofs.Machine.Nesting

/-! Locals that have had their turn stay as they are for as long as their call lasts. -/
namespace ClosureVM

/-- What a load pushes. -/
def Activation.load? (a : Activation) (i : Instruction) : Option Value :=
  match i.op, a.self with
  | .getLocal, _ => a.locals[i.operands.getD 0 0]?
  | .getFree, .closure _ _ free => free[i.operands.getD 0 0]?
  | .currentClosure, .closure .. => some a.self
  | _, _ => none

/-- A call later on. Its first `n` locals are the same, and none of them has its turn again. -/
structure Activation.Persists (pool : Array Value) (n : Nat) (a a' : Activation) : Prop where
  locals : ∀ i, i < n → a'.locals[i]? = a.locals[i]?
  turn : ∃ k n' m, n ≤ n' ∧ Piece.Binds pool k n' a'.code m

/-- Of nested calls, innermost first, the one above `below` is what has become of `a`. -/
def Activation.PersistsAbove (pool : Array Value) (n : Nat) (a : Activation)
    (below acts : List Activation) : Prop :=
  ∃ inner a', acts = inner ++ a' :: below ∧ a.Persists pool n a'

/-- Calls and the functions at hand bind their locals in turn. The last `k` instructions of the
innermost call were loads. -/
structure Config.Binds (k : Nat) (c : Config) : Prop where
  made : c.Made (Prototype.Binds c.constants)
  current : ∃ n m, Piece.Binds c.constants k n c.current.code m
  callers : ∀ a ∈ c.callers, ∃ n m, Piece.Binds c.constants 0 n a.code m

/-- All values after a step are made so, and a step that fails leaves the globals. -/
def Effect.Within (Q : Prototype → Prop) (globals : Slots) : Effect → Prop
  | .next c => c.Made Q
  | .stop _ c => c.globals = globals
  | .stuck => True

namespace Piece

variable {pool : Array Value} {k n m : Nat} {code code' : List Piece} {s : Option Nat}

theorem Binds.goesOn (h : Binds pool k n code m) (hg : GoesOn code s code') :
    ∃ k' n', n ≤ n' ∧ Binds pool k' n' code' m ∧ (∀ i, i < n → s ≠ some i) ∧
      (k' = 0 ∨ k' = k + 1 ∧ ∃ i rest, code = .ins i :: rest ∧ i.op.isCapture) := by
  have hnone {op : Opcode} (hop : op ≠ .setLocal) (a i : Nat) : op.local? a ≠ some i := by
    intro hi
    cases op <;> first | exact hop rfl | cases hi
  cases hg with
  | ins i rest =>
    cases h with
    | ins hi hr =>
      refine ⟨0, n, le_rfl, hr, fun i _ => hnone (fun hop => ?_) _ i, .inl rfl⟩
      rw [hop] at hi
      cases hi
    | load hi _ hr =>
      refine ⟨k + 1, n, le_rfl, hr, fun i _ => hnone (fun hop => ?_) _ i,
        .inr ⟨rfl, i, _, rfl, hi⟩⟩
      rw [hop] at hi
      cases hi
    | setLocal hr =>
      refine ⟨0, n + 1, Nat.le_succ n, hr, fun i hi he => ?_, .inl rfl⟩
      cases he
      exact Nat.lt_irrefl _ hi
    | closure _ _ _ _ hr =>
      refine ⟨0, n, le_rfl, hr, fun i _ he => ?_, .inl rfl⟩
      cases he
  | first t e rest =>
    cases h with
    | branch ht he hr =>
      refine ⟨0, n, le_rfl, ht.append (.skip he.le hr), fun i _ he => ?_, .inl rfl⟩
      cases he
  | second t e rest =>
    cases h with
    | branch ht he hr =>
      refine ⟨0, _, ht.le, he.append hr, fun i _ he => ?_, .inl rfl⟩
      cases he
  | skip rest =>
    cases h with
    | skip hn hr =>
      refine ⟨0, _, hn, hr, fun i _ he => ?_, .inl rfl⟩
      cases he

end Piece

namespace Activation

variable {pool : Array Value} {n n' : Nat} {a a' a'' : Activation} {below : List Activation}

theorem Persists.of_eq (h : a.Persists pool n a') (hcode : a''.code = a'.code)
    (hlocals : a''.locals = a'.locals) : a.Persists pool n a'' := by
  constructor
  · rw [hlocals]
    exact h.locals
  · rw [hcode]
    exact h.turn

theorem Persists.trans (h : a.Persists pool n a') (hn : n ≤ n') (h' : a'.Persists pool n' a'') :
    a.Persists pool n a'' := by
  obtain ⟨k, n'', m, hn', hbinds⟩ := h'.turn
  constructor
  · intro i hi
    rw [h'.locals i (Nat.lt_of_lt_of_le hi hn), h.locals i hi]
  · exact ⟨k, n'', m, Nat.le_trans hn hn', hbinds⟩

end Activation

namespace Config

variable {pool : Array Value} {k n m : Nat} {N : Int → Prop} {Q : Prototype → Prop}
  {c c' : Config} {a : Activation} {below : List Activation}

/-- The locals of the innermost call that have had their turn stay, wherever a step leads. -/
theorem Next.persists (h : c.Next c') (hb : Piece.Binds pool k n c.current.code m) :
    c'.callers = c.callers ∧ c.current.Persists pool n c'.current ∨
      (∃ a, c'.callers = a :: c.callers ∧ c.current.Persists pool n a) ∨
      ∃ a, c.callers = a :: c'.callers := by
  obtain ⟨s, code, hg, hm⟩ := h.moves
  obtain ⟨k', n', hn, hb', hs, -⟩ := hb.goesOn hg
  cases hm with
  | stays hstays =>
    left
    refine ⟨hstays.callers, fun i hi => hstays.locals i (hs i hi), k', n', m, hn, ?_⟩
    rw [hstays.code]
    exact hb'
  | enters _ _ _ hcallers =>
    right
    left
    exact ⟨_, hcallers, fun i _ => rfl, k', n', m, hn, hb'⟩
  | leaves hcallers =>
    right
    right
    exact ⟨_, hcallers⟩

theorem Next.persistsAbove (h : c.Next c')
    (hp : a.PersistsAbove pool n below (c.current :: c.callers))
    (hlen : below.length ≤ c'.callers.length) :
    a.PersistsAbove pool n below (c'.current :: c'.callers) := by
  obtain ⟨inner, a₁, hacts, hp⟩ := hp
  cases inner with
  | nil =>
    obtain ⟨rfl, rfl⟩ := List.cons.inj hacts
    obtain ⟨k, n', m, hn, hb⟩ := hp.turn
    rcases h.persists hb with ⟨hcallers, hp'⟩ | ⟨a₂, hcallers, hp'⟩ | ⟨a₂, hcallers⟩
    · exact ⟨[], _, by rw [hcallers]; rfl, hp.trans hn hp'⟩
    · exact ⟨[c'.current], a₂, by rw [hcallers]; rfl, hp.trans hn hp'⟩
    · rw [hcallers, List.length_cons] at hlen
      omega
  | cons b inner =>
    have habove : c.callers = inner ++ a₁ :: below := (List.cons.inj hacts).2
    rcases h.callers with hcallers | ⟨a₂, hcallers⟩ | ⟨a₂, hcallers, hcode, hlocals⟩
    · exact ⟨c'.current :: inner, a₁, by rw [hcallers, habove]; rfl, hp⟩
    · exact ⟨c'.current :: a₂ :: inner, a₁, by rw [hcallers, habove]; rfl, hp⟩
    · rw [habove] at hcallers
      cases inner with
      | nil =>
        obtain ⟨rfl, hbelow⟩ := List.cons.inj hcallers
        exact ⟨[], c'.current, by rw [hbelow]; rfl, hp.of_eq hcode hlocals⟩
      | cons b inner =>
        obtain ⟨rfl, hbelow⟩ := List.cons.inj hcallers
        exact ⟨c'.current :: inner, a₁, by rw [← hbelow]; rfl, hp⟩

theorem pushFound_eq_next {o : Option Value} (h : c.pushFound o = .next c') :
    ∃ v, o = some v ∧ c' = c.withTemps (v :: c.current.temps) := by
  cases o with
  | none => cases h
  | some v => exact ⟨v, rfl, push_eq_next h⟩

theorem makeClosure_eq_next {a n : Nat} (h : c.makeClosure a n = .next c') :
    ∃ id proto, c'.current.temps =
      .closure id proto (c.current.temps.take n).reverse :: c.current.temps.drop n := by
  unfold makeClosure at h
  dsimp only at h
  split at h
  · split at h
    · rw [push_eq_next h]
      exact ⟨_, _, rfl⟩
    · cases h
  · cases h

/-- Loads push, and do nothing else. -/
theorem execute_capture {i : Instruction} (hi : i.op.isCapture) {b : Nat}
    (h : c.execute i.op (i.operands.getD 0 0) b = .next c') :
    ∃ v, c.current.load? i = some v ∧ c' = c.withTemps (v :: c.current.temps) := by
  rcases i with ⟨op, operands⟩
  unfold Activation.load?
  cases op with
  | getLocal => exact pushFound_eq_next h
  | getFree =>
    simp only [execute] at h
    split at h
    · rename_i hself
      simp only [hself]
      exact pushFound_eq_next h
    · cases h
  | currentClosure =>
    simp only [execute] at h
    split at h
    · rename_i hself
      simp only [hself]
      rw [hself] at h
      exact ⟨_, rfl, push_eq_next h⟩
    · cases h
  | _ => cases hi

private theorem Made.execute_within (h : c.Made Q) {op : Opcode} {a b : Nat}
    (hconst : op = .constant → ∀ v, c.constants[a]? = some v → v.Made Q)
    (hclosure : op = .closure → ∀ proto, c.constants[a]? = some (.function proto) → Q proto) :
    (c.execute op a b).Within Q c.globals := by
  by_cases hop : op = .setGlobal
  · subst hop
    rcases @execute_setGlobal_eq c a b with hstuck | ⟨v, temps, htemps, hnext⟩
    · rw [hstuck]
      trivial
    · rw [hnext]
      obtain ⟨hv, hrest⟩ := h.uncons htemps
      exact ⟨h.setGlobal a hv, h.lastPopped, ⟨h.current.self, h.current.locals, hrest⟩, h.callers⟩
  · have hmade := h.execute (b := b) hop hconst hclosure
    cases he : c.execute op a b with
    | next c' =>
      rw [he] at hmade
      exact hmade.1
    | stop s c' =>
      rw [he] at hmade
      exact hmade.2
    | stuck => trivial

theorem Binds.step_within (h : c.Binds k) (ht : c.Typed N) :
    c.step.Within (Prototype.Binds c.constants) c.globals := by
  obtain ⟨n, m, hb⟩ := h.current
  unfold step
  split
  · trivial
  · rename_i i rest hcode
    rw [hcode] at hb
    refine (h.made.withCode rest).execute_within (fun hop v hv => ht.made_constant hcode hop hv)
      fun hop proto hproto => ?_
    cases hb with
    | ins hi | load hi =>
      rw [hop] at hi
      cases hi
    | setLocal => cases hop
    | closure _ ha hbody hbinds _ =>
      have he := ha.symm.trans hproto
      cases he
      exact ⟨_, hbody, hbinds⟩
  · split
    · rename_i htemps
      exact (h.made.withTemps (h.made.uncons htemps).2).withCode _
    · trivial
  · exact h.made.withCode _

/-- A step keeps to the turns of all calls. Loads are counted. -/
theorem Binds.next (h : c.Binds k) (ht : c.Typed N) (hn : c.Next c') :
    ∃ k', c'.Binds k' ∧
      (k' = 0 ∨ k' = k + 1 ∧ ∃ i rest, c.current.code = .ins i :: rest ∧ i.op.isCapture) := by
  have hmade := h.step_within ht
  have hkeeps := c.step_keeps
  rw [show c.step = .next c' from hn] at hmade hkeeps
  have hconst : c'.constants = c.constants := hkeeps.1
  have hmade' : c'.Made (Prototype.Binds c'.constants) := hconst ▸ hmade
  obtain ⟨n, m, hb⟩ := h.current
  obtain ⟨s, code, hg, hm⟩ := hn.moves
  obtain ⟨k', n', -, hb', -, rfl | ⟨rfl, i, rest, hcode, hi⟩⟩ := hb.goesOn hg
  · refine ⟨0, ⟨hmade', ?_, ?_⟩, .inl rfl⟩
    · rw [hconst]
      cases hm with
      | stays hstays =>
        rw [hstays.code]
        exact ⟨n', m, hb'⟩
      | enters hmem hbody =>
        cases h.made.current.temps _ hmem with
        | closure hproto _ =>
          obtain ⟨body, hhas, hbinds⟩ := hproto
          rw [hhas.body?_eq] at hbody
          cases hbody
          exact ⟨_, _, hbinds⟩
      | leaves hcallers _ hcode =>
        rw [hcode]
        exact h.callers _ (hcallers ▸ List.mem_cons_self)
    · rw [hconst]
      cases hm with
      | stays hstays =>
        rw [hstays.callers]
        exact h.callers
      | enters _ _ _ hcallers =>
        rw [hcallers]
        exact List.forall_mem_cons.mpr ⟨⟨n', m, hb'⟩, h.callers⟩
      | leaves hcallers =>
        intro a ha
        exact h.callers a (hcallers ▸ List.mem_cons_of_mem _ ha)
  · -- a load stays in its place, whatever `Moves` allows
    rw [hcode] at hg
    cases hg
    unfold Next step at hn
    rw [hcode] at hn
    obtain ⟨v, -, rfl⟩ := execute_capture hi hn
    exact ⟨k + 1, ⟨hmade', ⟨n', m, hb'⟩, h.callers⟩, .inr ⟨rfl, i, _, hcode, hi⟩⟩

/-- A step that fails leaves the globals. -/
theorem Binds.stop (h : c.Binds k) (ht : c.Typed N) {s : Stop} (hs : c.step = .stop s c') :
    c'.globals = c.globals := by
  have hwithin := h.step_within ht
  rw [hs] at hwithin
  exact hwithin

end Config

end ClosureVM
