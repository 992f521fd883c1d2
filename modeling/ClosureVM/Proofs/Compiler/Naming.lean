import ClosureVM.Proofs.Code.Boundaries
import ClosureVM.Proofs.Compiler.Composition

/-! Every function in the pool has its closures made at one place only, which lies in the program
or in a function further on in the pool. -/
namespace ClosureVM

/-- The constant of the function that an instruction makes a closure of. -/
def Instruction.closes? : Instruction → Option Nat
  | ⟨.closure, [k, _]⟩ => some k
  | _ => none

private theorem Instruction.closes?_eq_none {i : Instruction} (h : i.op ≠ .closure) :
    i.closes? = none := by
  unfold closes?
  split
  · exact absurd rfl h
  · rfl

theorem Instruction.closes?_eq_some {i : Instruction} {k : Nat} (h : i.closes? = some k) :
    ∃ n, i = ⟨.closure, [k, n]⟩ := by
  unfold closes? at h
  split at h
  · cases h
    exact ⟨_, rfl⟩
  · cases h

def Located.closes (k : Nat) (l : Located) : Bool := l.instruction.closes? = some k

/-- At how many places code makes closures of the function with constant `k`. -/
def Code.sites (code : Code) (k : Nat) : Nat := code.listing.items.toList.countP (·.closes k)

/-- At how many places the function that a constant may be makes closures. -/
def Value.sites : Value → Nat → Nat
  | .function proto => proto.code.sites
  | _ => fun _ => 0

/-- At how many places the functions of a pool make closures of the function with
constant `k`. -/
def sitesIn (pool : Array Value) (k : Nat) : Nat := (pool.toList.map (·.sites k)).sum

/-- Whether constant `k` is a function, as a number. -/
def functionsAt (pool : Array Value) (k : Nat) : Nat :=
  match pool[k]? with
  | some (.function _) => 1
  | _ => 0

/-- Functions in the pool make closures of earlier ones only. -/
def Descends (pool : Array Value) : Prop :=
  ∀ (j : Nat) (proto : Prototype), pool[j]? = some (.function proto) →
    ∀ k, j ≤ k → proto.code.sites k = 0

theorem sitesIn_push (pool : Array Value) (v : Value) (k : Nat) :
    sitesIn (pool.push v) k = sitesIn pool k + v.sites k := by
  simp [sitesIn, Array.toList_push]

theorem Extends.sitesIn_le {pool pool' : Array Value} (h : Extends pool pool') (k : Nat) :
    sitesIn pool k ≤ sitesIn pool' k := by
  obtain ⟨rest, hr⟩ := h
  rw [sitesIn, sitesIn, ← hr, List.map_append, List.sum_append_nat]
  exact Nat.le_add_right ..

theorem functionsAt_eq_zero {pool : Array Value} {k : Nat} (h : pool.size ≤ k) :
    functionsAt pool k = 0 := by
  rw [functionsAt, Array.getElem?_eq_none h]

private theorem functionsAt_push_function (pool : Array Value) (proto : Prototype) (k : Nat) :
    functionsAt (pool.push (.function proto)) k =
      functionsAt pool k + if pool.size = k then 1 else 0 := by
  unfold functionsAt
  by_cases hk : pool.size = k
  · subst hk
    simp
  · rw [Array.getElem?_push, if_neg (Ne.symm hk), if_neg hk, Nat.add_zero]

theorem Value.IsLiteral.functionsAt_push {v : Value} (h : v.IsLiteral) (pool : Array Value)
    (k : Nat) : functionsAt (pool.push v) k = functionsAt pool k := by
  unfold functionsAt
  by_cases hk : k = pool.size
  · subst hk
    rw [Array.getElem?_push_size, Array.getElem?_eq_none (Nat.le_refl _)]
    cases v <;> first | rfl | cases h
  · rw [Array.getElem?_push, if_neg hk]

theorem Value.IsLiteral.sites_eq {v : Value} (h : v.IsLiteral) (k : Nat) : v.sites k = 0 := by
  cases v <;> first | rfl | cases h

theorem Descends.push {pool : Array Value} (h : Descends pool) {v : Value}
    (hv : ∀ k, pool.size ≤ k → v.sites k = 0) : Descends (pool.push v) := by
  intro j proto hj k hk
  rw [Array.getElem?_push] at hj
  split at hj
  · rename_i he
    cases hj
    exact hv k (he ▸ hk)
  · exact h j proto hj k hk

namespace Piece

/-- At how many places a stretch of code makes closures of the function with constant `k`. -/
def sites (position : Nat) (ps : List Piece) (k : Nat) : Nat :=
  (locateAll position ps).countP (·.closes k)

variable {position k : Nat} {ps qs : List Piece}

@[simp] theorem sites_append :
    sites position (ps ++ qs) k = sites position ps k + sites (position + totalSize ps) qs k := by
  rw [sites, locateAll_append, List.countP_append]
  rfl

theorem sites_ins {i : Instruction} :
    sites position [.ins i] k = if i.closes? = some k then 1 else 0 := by
  simp [sites, locateAll, locate, List.countP_cons, Located.closes]

theorem sites_ins_eq_zero {i : Instruction} (h : i.op ≠ .closure) :
    sites position [.ins i] k = 0 := by
  rw [sites_ins, Instruction.closes?_eq_none h, if_neg (by simp)]

private theorem sites_branch :
    sites position [.branch ps qs] k =
      sites (position + 3) ps k + sites (position + 3 + totalSize ps + 3) qs k := by
  have hover : Located.closes k ⟨position, jumpOver position (totalSize ps)⟩ = false := rfl
  have hpast : Located.closes k ⟨position + 3 + totalSize ps,
      jumpPast (position + 3 + totalSize ps) (totalSize qs)⟩ = false := rfl
  rw [sites, locateAll_branch]
  simp [sites, hover, hpast, locateAll]

theorem sites_concat_ins {i : Instruction} (h : i.op ≠ .closure) :
    sites position (ps ++ [.ins i]) k = sites position ps k := by
  rw [sites_append, sites_ins_eq_zero h, Nat.add_zero]

theorem sites_asBranch : sites position (asBranch ps) k = sites position ps k :=
  (asBranch_iff (T := fun qs => sites position qs k = sites position ps k)
    (fun _ => by rw [sites_concat_ins (by decide)])
    (fun _ => by rw [sites_concat_ins (by decide)]) ps).mpr rfl

private theorem sites_asBody : sites position (asBody ps) k = sites position ps k :=
  (asBody_iff (T := fun qs => sites position qs k = sites position ps k)
    (fun _ => by rw [sites_concat_ins (by decide)])
    (fun _ => by rw [sites_concat_ins (by decide)])
    (fun _ => by rw [sites_concat_ins (by decide)]) ps).mpr rfl

theorem sites_load (s : Symbol) : sites position [s.load] k = 0 := by
  unfold Symbol.load
  cases s.storage <;> exact sites_ins_eq_zero (by nofun)

private theorem sites_loads (symbols : List Symbol) :
    sites position (symbols.map Symbol.load) k = 0 := by
  induction symbols generalizing position with
  | nil => rfl
  | cons s rest ih =>
    rw [List.map_cons, ← List.singleton_append, sites_append, sites_load, ih]

private theorem sites_store (s : Symbol) : sites position [s.store] k = 0 := by
  unfold Symbol.store
  cases s.storage <;> exact sites_ins_eq_zero (by nofun)

end Piece

open Piece

theorem Code.sites_layout {ps : List Piece} (h : Fits 0 ps) (k : Nat) :
    Code.sites (layout 0 ps).toArray k = Piece.sites 0 ps k := by
  rw [Code.sites, Code.listing_layout h]
  rfl

/-- Code that leads from one draft to another and makes, with the functions that are new, closures
of each new function at one place. -/
structure Draft.Closes (d : Draft) (ps : List Piece) (d' : Draft) : Prop where
  pool : Extends d.constants d'.constants
  sites (position k : Nat) :
    Piece.sites position ps k + sitesIn d'.constants k + functionsAt d.constants k =
      sitesIn d.constants k + functionsAt d'.constants k
  descends : Descends d.constants → Descends d'.constants

namespace Draft

variable {d d' d'' : Draft} {ps qs : List Piece}

theorem Closes.of_eq (hc : d'.constants = d.constants)
    (h : ∀ position k, Piece.sites position ps k = 0) : d.Closes ps d' where
  pool := hc ▸ .refl _
  sites position k := by rw [h, hc, Nat.zero_add]
  descends hd := hc ▸ hd

theorem Closes.append (h : d.Closes ps d') (h' : d'.Closes qs d'') : d.Closes (ps ++ qs) d'' where
  pool := h.pool.trans h'.pool
  sites position k := by
    have h₁ := h.sites position k
    have h₂ := h'.sites (position + totalSize ps) k
    rw [sites_append]
    omega
  descends hd := h'.descends (h.descends hd)

/-- Nothing is made of constants that are yet to come. -/
theorem Closes.sites_eq_zero (h : d.Closes ps d') {position k : Nat}
    (hk : d'.constants.size ≤ k) : Piece.sites position ps k = 0 := by
  have hs := h.sites position k
  have hle := h.pool.sitesIn_le k
  rw [functionsAt_eq_zero hk] at hs
  omega

theorem Closes.literal (d : Draft) {v : Value} (hv : v.IsLiteral) :
    d.Closes [.op .constant [d.constants.size]] (d.addConstant v) where
  pool := .push ..
  sites position k := by
    rw [sites_ins_eq_zero (by nofun), addConstant, hv.functionsAt_push, sitesIn_push, hv.sites_eq]
    omega
  descends hd := hd.push fun k _ => hv.sites_eq k

theorem Closes.branch (h : d.Closes ps d') (h' : d'.Closes qs d'') :
    d.Closes [.branch (asBranch ps) (asBranch qs)] d'' where
  pool := h.pool.trans h'.pool
  sites position k := by
    have h₁ := h.sites (position + 3) k
    have h₂ := h'.sites (position + 3 + totalSize (asBranch ps) + 3) k
    rw [sites_branch, sites_asBranch, sites_asBranch]
    omega
  descends hd := h'.descends (h.descends hd)

/-- The place where closures of a function are made is behind all that its body makes. -/
theorem Closes.function {params : List Node} {names : List String} {name : Option String}
    (h : (d.enter name names).Closes ps d') (hb : Fits 0 (asBody ps)) :
    d.Closes (d'.env.current.free.map Symbol.load ++
        [.op .closure [d'.constants.size, d'.env.current.free.length]])
      (d'.leave (.ofBody d' ps params name)) := by
  have hbody : ∀ k, (Value.function (.ofBody d' ps params name)).sites k = Piece.sites 0 ps k :=
    fun k => (Code.sites_layout hb k).trans sites_asBody
  refine ⟨h.pool.trans (.push ..), fun position k => ?_, fun hd => ?_⟩
  · have hs : Piece.sites 0 ps k + sitesIn d'.constants k + functionsAt d.constants k =
        sitesIn d.constants k + functionsAt d'.constants k := h.sites 0 k
    have hsite : ∀ position, Piece.sites position
        [.op .closure [d'.constants.size, d'.env.current.free.length]] k =
          if d'.constants.size = k then 1 else 0 := by
      intro position
      rw [sites_ins]
      simp only [Instruction.closes?, Option.some.injEq]
    rw [leave, sites_append, sites_loads, hsite, functionsAt_push_function, sitesIn_push, hbody]
    omega
  · exact (h.descends hd).push fun k hk => (hbody k).trans (h.sites_eq_zero hk)

end Draft

/-- The code of a phrase makes closures of each function that it adds to the pool, at one
place. -/
theorem Translates.closes {phrase : Phrase} {d d' : Draft} {ps : List Piece}
    (h : Translates phrase d ps d') : d.Closes ps d' := by
  refine h.compose ?nil ?append ?inert ?literal ?load ?define ?branch ?function
  case nil => exact fun d => .of_eq rfl fun _ _ => rfl
  case append => exact fun h h' => h.append h'
  case inert =>
    refine fun d op operands hop => .of_eq rfl fun _ _ => sites_ins_eq_zero ?_
    rintro rfl
    cases hop
  case literal => exact fun d v hv => .literal d hv
  case load => exact fun _ => .of_eq rfl fun _ _ => sites_load _
  case define => exact fun d name => .of_eq rfl fun _ _ => sites_store _
  case branch => exact fun h h' => h.branch h'
  case function => exact fun _ _ h hb => h.function hb

end ClosureVM
