import ClosureVM.Proofs.Symbol.Resolution
import ClosureVM.Symbol.Forest

/-! Names are resolved among numbered tables as they are along a list of tables, since no two
tables share a sheet. Resolving a name captures it once in every table on the way to the one that
holds it, changes nothing else, and leads back there. -/
namespace ClosureVM.Forest

variable {f g : Forest} {i j : Nat} {name : String}

/-- Only what stands on the sheets, and the counts of definitions, may differ. -/
structure SameShape (f g : Forest) : Prop where
  sheets : g.sheets.size = f.sheets.size
  entries : g.entries.size = f.entries.size
  marks : g.marks = f.marks
  outer : ∀ i, (g.entry i).outer = (f.entry i).outer
  sheet : ∀ i, (g.entry i).state.sheet = (f.entry i).state.sheet

/-- Every table has a sheet of its own, and an enclosing table is older. -/
structure Separate (f : Forest) : Prop where
  held : ∀ i < f.entries.size, (f.entry i).state.sheet < f.sheets.size
  apart : ∀ i < f.entries.size, ∀ j < f.entries.size,
    (f.entry i).state.sheet = (f.entry j).state.sheet → i = j
  older : ∀ i j, (f.entry i).outer = some j → j < i

/-- The tables of a chain have come to be `ts`, and no other table has changed. -/
structure Becomes (f : Forest) (chain : List Nat) (ts : List Table) (g : Forest) : Prop where
  shape : f.SameShape g
  tables : chain.map g.table = ts
  others : ∀ j < f.entries.size, j ∉ chain → g.table j = f.table j
  unchanged : ts = chain.map f.table → g = f

/-- The tables around table `i`, itself first. -/
def tables (f : Forest) (i : Nat) : List Table := (f.chain i).map f.table

theorem SameShape.refl (f : Forest) : f.SameShape f := ⟨rfl, rfl, rfl, fun _ => rfl, fun _ => rfl⟩

theorem SameShape.trans {f g h : Forest} (hf : f.SameShape g) (hg : g.SameShape h) :
    f.SameShape h where
  sheets := hg.sheets.trans hf.sheets
  entries := hg.entries.trans hf.entries
  marks := hg.marks.trans hf.marks
  outer i := (hg.outer i).trans (hf.outer i)
  sheet i := (hg.sheet i).trans (hf.sheet i)

theorem SameShape.separate (h : f.SameShape g) (hf : f.Separate) : g.Separate where
  held i hi := by
    rw [h.sheet, h.sheets]
    exact hf.held i (h.entries ▸ hi)
  apart i hi j hj he := by
    rw [h.sheet, h.sheet] at he
    exact hf.apart i (h.entries ▸ hi) j (h.entries ▸ hj) he
  older i j ho := hf.older i j (h.outer i ▸ ho)

theorem SameShape.chain (h : f.SameShape g) (i : Nat) : g.chain i = f.chain i := by
  induction i using Nat.strongRecOn with
  | ind i ih =>
    rw [Forest.chain, Forest.chain.eq_def f, h.outer]
    cases (f.entry i).outer with
    | none => rfl
    | some j =>
      dsimp only
      split
      · rename_i hj
        rw [ih j hj]
      · rfl

theorem getD_setIfInBounds {α : Type} (a : Array α) (i j : Nat) (x d : α) :
    (a.setIfInBounds i x).getD j d = if i = j ∧ j < a.size then x else a.getD j d := by
  rw [Array.getD_eq_getD_getElem?, Array.getElem?_setIfInBounds, Array.getD_eq_getD_getElem?]
  by_cases hi : i = j
  · subst hi
    by_cases hj : i < a.size
    · simp [hj]
    · simp [hj]
  · simp [hi]

theorem entry_setTable (f : Forest) (i j : Nat) (t : Table) : (f.setTable i t).entry j =
    if i = j ∧ j < f.entries.size then
      { f.entry i with state := { (f.entry i).state with numDefinitions := t.numDefinitions } }
    else f.entry j :=
  getD_setIfInBounds ..

theorem sameShape_setTable (f : Forest) (i : Nat) (t : Table) : f.SameShape (f.setTable i t) where
  sheets := Array.size_setIfInBounds
  entries := Array.size_setIfInBounds
  marks := rfl
  outer j := by
    rw [entry_setTable]
    split
    · rename_i h
      rw [h.1]
    · rfl
  sheet j := by
    rw [entry_setTable]
    split
    · rename_i h
      rw [h.1]
    · rfl

/-- What is written to one table is found there, and in no other. -/
theorem Separate.table_setTable (h : f.Separate) (hi : i < f.entries.size)
    (hj : j < f.entries.size) (t : Table) :
    (f.setTable i t).table j = if j = i then t else f.table j := by
  have hs : ((f.setTable i t).sheets.getD ((f.setTable i t).entry j).state.sheet {}) =
      if j = i then ⟨t.symbols, t.free⟩ else f.sheets.getD (f.entry j).state.sheet {} := by
    rw [(sameShape_setTable f i t).sheet]
    rw [setTable, getD_setIfInBounds]
    by_cases hji : j = i
    · subst hji
      rw [if_pos ⟨rfl, h.held j hj⟩, if_pos rfl]
    · rw [if_neg fun he => hji (h.apart i hi j hj he.1).symm, if_neg hji]
  unfold Forest.table view
  rw [hs, entry_setTable]
  by_cases hji : j = i
  · subst hji
    simp [hj]
  · simp [hji, Ne.symm hji]

theorem entry_add (f : Forest) (outer : Option Nat) (t : Table) (j : Nat) :
    (f.add outer t).2.entry j =
      if j = f.entries.size then ⟨outer, ⟨f.sheets.size, t.numDefinitions⟩⟩ else f.entry j := by
  unfold add entry
  rw [Array.getD_eq_getD_getElem?, Array.getElem?_push, Array.getD_eq_getD_getElem?]
  split <;> rfl

section NewSheet

variable {m : Mark} {t : Table} (hg : g.sheets = f.sheets.push ⟨t.symbols, t.free⟩)
include hg

/-- What stands on the older sheets is not touched when one is added. -/
theorem view_of_lt (hm : m.sheet < f.sheets.size) : g.view m = f.view m := by
  rw [view, hg, Array.getD_eq_getD_getElem?, Array.getElem?_push_lt hm,
    ← Array.getElem?_eq_getElem hm, ← Array.getD_eq_getD_getElem?]
  rfl

theorem view_size : g.view ⟨f.sheets.size, t.numDefinitions⟩ = t := by
  rw [view, hg, Array.getD_eq_getD_getElem?, Array.getElem?_push_size]
  rfl

end NewSheet

theorem Separate.table_add (h : f.Separate) (outer : Option Nat) (t : Table)
    (hj : j < f.entries.size + 1) :
    (f.add outer t).2.table j = if j = f.entries.size then t else f.table j := by
  rw [table, entry_add]
  split
  · exact view_size rfl
  · exact view_of_lt rfl (h.held j (by omega))

namespace Becomes

variable {outer : List Nat} {ts : List Table} (h : f.Becomes outer ts g)
  (hlt : ∀ j ∈ outer, i > j) (hi : i < f.entries.size)
include h hlt hi

theorem table_inner : g.table i = f.table i :=
  h.others i hi fun hm => Nat.lt_irrefl i (hlt i hm)

theorem keep : f.Becomes (i :: outer) (f.table i :: ts) g where
  shape := h.shape
  tables := by rw [List.map_cons, h.table_inner hlt hi, h.tables]
  others j hj hm := h.others j hj (List.not_mem_of_not_mem_cons hm)
  unchanged he := h.unchanged (List.tail_eq_of_cons_eq he)

theorem set (hf : f.Separate) (ho : ∀ j ∈ outer, j < f.entries.size) {t : Table}
    (ht : t ≠ f.table i) : f.Becomes (i :: outer) (t :: ts) (g.setTable i t) := by
  have hset : ∀ j < f.entries.size, (g.setTable i t).table j = if j = i then t else g.table j :=
    fun j hj => (h.shape.separate hf).table_setTable (h.shape.entries ▸ hi) (h.shape.entries ▸ hj) t
  refine ⟨h.shape.trans (sameShape_setTable g i t), ?_, fun j hj hm => ?_, fun he => ?_⟩
  · rw [List.map_cons, hset i hi, if_pos rfl, ← h.tables]
    congr 1
    exact List.map_congr_left fun j hj =>
      (hset j (ho j hj)).trans (if_neg (Nat.ne_of_lt (hlt j hj)))
  · rw [hset j hj, if_neg (List.ne_of_not_mem_cons hm),
      h.others j hj (List.not_mem_of_not_mem_cons hm)]
  · exact absurd (List.head_eq_of_cons_eq he) ht

end Becomes

namespace Separate

variable (h : f.Separate)
include h

/-- The chain of a table is the table and the chain of the one around it. -/
theorem chain_eq (i : Nat) : f.chain i = i :: ((f.entry i).outer.map f.chain).getD [] := by
  rw [chain]
  cases ho : (f.entry i).outer with
  | none => rfl
  | some j => exact if_pos (h.older i j ho)

theorem chain_pairwise (i : Nat) : (f.chain i).Pairwise (· > ·) ∧ ∀ j ∈ f.chain i, j ≤ i := by
  induction i using Nat.strongRecOn with
  | ind i ih =>
    rw [h.chain_eq]
    cases ho : (f.entry i).outer with
    | none => simp
    | some j =>
      have hj := h.older i j ho
      obtain ⟨hp, hle⟩ := ih j hj
      refine ⟨List.pairwise_cons.mpr ⟨fun m hm => Nat.lt_of_le_of_lt (hle m hm) hj, hp⟩, ?_⟩
      refine List.forall_mem_cons.mpr ⟨Nat.le_refl i, fun m hm => ?_⟩
      exact Nat.le_of_lt (Nat.lt_of_le_of_lt (hle m hm) hj)

theorem head?_tables (i : Nat) : (f.tables i).head? = some (f.table i) := by
  rw [tables, h.chain_eq]
  rfl

theorem mem_chain_lt (hi : i < f.entries.size) : ∀ j ∈ f.chain i, j < f.entries.size :=
  fun j hj => Nat.lt_of_le_of_lt ((h.chain_pairwise i).2 j hj) hi

/-- Resolving among the numbered tables is resolving along the list of their contents. -/
theorem resolveIn_cases (name : String) {chain : List Nat} (hc : ∀ i ∈ chain, i < f.entries.size)
    (hp : chain.Pairwise (· > ·)) :
    (resolveAlong name (chain.map f.table) = none ∧ f.resolveIn name chain = none) ∨
    ∃ s ts g, resolveAlong name (chain.map f.table) = some (s, ts) ∧
      f.resolveIn name chain = some (s, g) ∧ f.Becomes chain ts g := by
  induction chain with
  | nil => exact .inl ⟨rfl, rfl⟩
  | cons i outer ih =>
    obtain ⟨hi, ho⟩ := List.forall_mem_cons.mp hc
    obtain ⟨hlt, hp⟩ := List.pairwise_cons.mp hp
    rw [List.map_cons, resolveAlong, resolveIn]
    cases ht : (f.table i).find? name with
    | some s => exact .inr ⟨s, _, f, rfl, rfl, .refl f, rfl, fun _ _ _ => rfl, fun _ => rfl⟩
    | none =>
      obtain ⟨hr, hn⟩ | ⟨v, us, g, hr, hg, hb⟩ := ih ho hp
      · rw [hr, hn]
        exact .inl ⟨rfl, rfl⟩
      · rw [hr, hg]
        dsimp only
        -- captures further out have left this table as it was
        rw [hb.table_inner hlt hi]
        split
        · exact .inr ⟨v, _, g, rfl, rfl, hb.keep hlt hi⟩
        · exact .inr ⟨_, _, _, rfl, rfl, hb.set hlt hi h ho (Table.capture_ne _ v)⟩

theorem resolve?_cases (name : String) (hi : i < f.entries.size) :
    (resolveAlong name (f.tables i) = none ∧ f.resolve? i name = none) ∨
    ∃ s ts g, resolveAlong name (f.tables i) = some (s, ts) ∧
      f.resolve? i name = some (s, g) ∧ f.Becomes (f.chain i) ts g :=
  h.resolveIn_cases name (h.mem_chain_lt hi) (h.chain_pairwise i).1

theorem setTable (i : Nat) (t : Table) : (f.setTable i t).Separate :=
  (sameShape_setTable f i t).separate h

theorem add {outer : Option Nat} (ho : ∀ j ∈ outer, j < f.entries.size) (t : Table) :
    (f.add outer t).2.Separate := by
  have hsheets : (f.add outer t).2.sheets.size = f.sheets.size + 1 := Array.size_push _
  have hentries : (f.add outer t).2.entries.size = f.entries.size + 1 := Array.size_push _
  have hold : ∀ j < f.entries.size + 1, j ≠ f.entries.size →
      j < f.entries.size ∧ (f.entry j).state.sheet < f.sheets.size := by
    intro j hj hne
    have hlt : j < f.entries.size := by omega
    exact ⟨hlt, h.held j hlt⟩
  refine ⟨fun j hj => ?_, fun j hj k hk he => ?_, fun j k hk => ?_⟩
  · rw [hentries] at hj
    rw [entry_add, hsheets]
    split
    · exact Nat.lt_succ_self _
    · rename_i hne
      exact Nat.lt_succ_of_lt (hold j hj hne).2
  · rw [hentries] at hj hk
    rw [entry_add, entry_add] at he
    split at he <;> split at he <;> rename_i hj' hk'
    · exact hj'.trans hk'.symm
    · exact absurd he.symm (Nat.ne_of_lt (hold k hk hk').2)
    · exact absurd he (Nat.ne_of_lt (hold j hj hj').2)
    · exact h.apart j (hold j hj hj').1 k (hold k hk hk').1 he
  · rw [entry_add] at hk
    split at hk
    · rename_i hj
      exact hj ▸ ho k hk
    · exact h.older j k hk

end Separate

/-- The forests that come of new tables, of definitions and of resolving names. -/
inductive Built : Forest → Prop
  | empty : Built {}
  | add {f : Forest} (h : Built f) (outer : Option Nat) (ho : ∀ j ∈ outer, j < f.entries.size)
    (t : Table) : Built (f.add outer t).2
  | define {f : Forest} (h : Built f) {i : Nat} (hi : i < f.entries.size) (name : String) :
    Built (f.define i name).2
  | defineBuiltin {f : Forest} (h : Built f) {i : Nat} (hi : i < f.entries.size) (index : Int)
    (name : String) : Built (f.defineBuiltin i index name).2
  | defineFunctionName {f : Forest} (h : Built f) {i : Nat} (hi : i < f.entries.size)
    (name : String) : Built (f.defineFunctionName i name).2
  | resolve {f g : Forest} (h : Built f) {i : Nat} (hi : i < f.entries.size) {name : String}
    {s : Symbol} (hr : f.resolve? i name = some (s, g)) : Built g

theorem Built.separate (h : f.Built) : f.Separate := by
  induction h with
  | empty =>
    have hnone : ∀ i, ¬i < ({} : Forest).entries.size := Nat.not_lt_zero
    refine ⟨fun i hi => absurd hi (hnone i), fun i hi => absurd hi (hnone i), fun i j ho => ?_⟩
    cases ho
  | add _ _ ho t ih => exact ih.add ho t
  | define _ _ _ ih => exact ih.setTable _ _
  | defineBuiltin _ _ _ _ ih => exact ih.setTable _ _
  | defineFunctionName _ _ _ ih => exact ih.setTable _ _
  | @resolve f g _ i hi name s hr ih =>
    obtain ⟨-, hn⟩ | ⟨_, _, _, -, hg, hb⟩ := ih.resolve?_cases name hi
    · rw [hn] at hr
      cases hr
    · rw [hg] at hr
      cases hr
      exact hb.shape.separate ih

end ClosureVM.Forest
