import Mathlib.Logic.Relation
import ClosureVM.Proofs.Symbol.Forest

/-! What every table keeps to while tables are made, names are defined and resolved, and tables are
put back to marks, as long as no mark is used twice. -/
namespace ClosureVM

/-- Whether the symbol is that of a variable with a place of its own in the scope. -/
def Symbol.isVariable (s : Symbol) : Bool := s.storage = .global ∨ s.storage = .frame

namespace Table

/-- What holds of a table at all times; `root` says that there is no table around it. -/
structure WellKept (root : Bool) (t : Table) : Prop where
  names : t.symbols.Pairwise (·.name ≠ ·.name)
  indices : t.symbols.Pairwise fun s u => s.isVariable → u.isVariable → s.index ≠ u.index
  places : ∀ s ∈ t.symbols, s.isVariable → 0 ≤ s.index ∧ s.index < t.numDefinitions
  global_iff : ∀ s ∈ t.symbols, s.isVariable → (s.storage = .global ↔ root = true)
  captured : ∀ s ∈ t.symbols, s.storage = .free →
    ∃ (i : Nat) (u : Symbol), s.index = i ∧ t.free[i]? = some u ∧ u.name = s.name
  free_names : t.free.Pairwise (·.name ≠ ·.name)
  free_owned : ∀ u ∈ t.free, u.storage.isShared = false
  free_root : root = true → t.free = []
  /-- A name once captured may come to mean something else, but is not captured again. -/
  free_stored : ∀ u ∈ t.free, t.find? u.name ≠ none

/-- The ways in which the contents of a table change, one name at a time. -/
inductive Edit (root : Bool) (t : Table) : Table → Prop
  | define (name : String) : Edit root t (t.define (if root then .global else .frame) name).2
  | defineBuiltin (index : Int) (name : String) : Edit root t (t.defineBuiltin index name).2
  | defineFunctionName (name : String) : Edit root t (t.defineFunctionName name).2
  | capture {s : Symbol} : root = false → s.storage.isShared = false → t.find? s.name = none →
    Edit root t (t.capture s).2

variable {root : Bool} {t t' : Table}

private theorem wellKept_empty (root : Bool) : WellKept root {} := by
  constructor <;> simp

/-- A symbol comes into the table, and further symbols are captured. -/
theorem WellKept.insert (h : t.WellKept root) {s : Symbol} {n : Nat} {free : List Symbol}
    (hn : t.numDefinitions ≤ n) (hgrown : t.free <+: free)
    (hvariable : s.isVariable → s.index = t.numDefinitions ∧ t.numDefinitions < n ∧
      (s.storage = .global ↔ root = true))
    (hcaptured : s.storage = .free →
      ∃ (i : Nat) (u : Symbol), s.index = i ∧ free[i]? = some u ∧ u.name = s.name)
    (hnames : free.Pairwise (·.name ≠ ·.name)) (howned : ∀ u ∈ free, u.storage.isShared = false)
    (hroot : root = true → free = []) (hstored : ∀ u ∈ free, u ∈ t.free ∨ u.name = s.name) :
    WellKept root { t.insert s with numDefinitions := n, free } where
  names := by
    refine List.pairwise_cons.mpr ⟨fun u hu => ?_, h.names.filter _⟩
    exact Ne.symm (of_decide_eq_true (List.mem_filter.mp hu).2)
  indices := by
    refine List.pairwise_cons.mpr ⟨fun u hu hs hv => ?_, h.indices.filter _⟩
    -- the places given so far are below the new one
    have hlt := (h.places u (List.mem_filter.mp hu).1 hv).2
    rw [(hvariable hs).1]
    omega
  places u hu hv := by
    dsimp only
    obtain rfl | hu := mem_insert hu
    · obtain ⟨hi, hlt, -⟩ := hvariable hv
      omega
    · have := h.places u hu hv
      omega
  global_iff u hu hv := by
    obtain rfl | hu := mem_insert hu
    · exact (hvariable hv).2.2
    · exact h.global_iff u hu hv
  captured u hu hf := by
    obtain rfl | hu := mem_insert hu
    · exact hcaptured hf
    · obtain ⟨i, v, hi, hv, hname⟩ := h.captured u hu hf
      obtain ⟨rest, rfl⟩ := hgrown
      refine ⟨i, v, hi, ?_, hname⟩
      dsimp only
      rw [List.getElem?_append_left (List.getElem?_eq_some_iff.mp hv).1, hv]
  free_names := hnames
  free_owned := howned
  free_root := hroot
  free_stored u hu := by
    change (t.insert s).find? u.name ≠ none
    rw [find?_insert]
    split
    · exact Option.some_ne_none _
    · rename_i hne
      exact h.free_stored u ((hstored u hu).resolve_right hne)

private theorem Edit.wellKept (he : t.Edit root t') (h : t.WellKept root) : t'.WellKept root := by
  -- a symbol that is neither a variable nor a capture has no place to be checked
  have hplain {s : Symbol} (hs : s.storage = .builtin ∨ s.storage = .self) :
      (t.insert s).WellKept root := by
    refine h.insert (Nat.le_refl _) List.prefix_rfl (fun hv => ?_) (fun hf => ?_) h.free_names
      h.free_owned h.free_root fun u hu => .inl hu
    · obtain hs | hs := hs <;> simp [Symbol.isVariable, hs] at hv
    · obtain hs | hs := hs <;> simp [hs] at hf
  cases he with
  | define name =>
    refine h.insert (Nat.le_succ _) List.prefix_rfl (fun _ => ⟨rfl, Nat.lt_succ_self _, ?_⟩)
      (fun hf => ?_) h.free_names h.free_owned h.free_root fun u hu => .inl hu
    · cases root <;> simp
    · cases root <;> cases hf
  | defineBuiltin index name => exact hplain (.inl rfl)
  | defineFunctionName name => exact hplain (.inr rfl)
  | @capture s hr hs hnone =>
    refine h.insert (Nat.le_refl _) (List.prefix_append ..) (fun hv => ?_)
      (fun _ => ⟨t.free.length, s, rfl, List.getElem?_concat_length, rfl⟩) ?_ ?_
      (fun hroot => absurd hroot (by simp [hr])) fun u hu => ?_
    · cases hv
    · refine List.pairwise_append.mpr ⟨h.free_names, List.pairwise_singleton _ s, ?_⟩
      -- a name that is captured already is in the table
      intro u hu v hv hname
      obtain rfl := List.mem_singleton.mp hv
      exact h.free_stored u hu (hname ▸ hnone)
    · exact List.forall_mem_append.mpr ⟨h.free_owned, List.forall_mem_singleton.mpr hs⟩
    · obtain hu | hu := List.mem_append.mp hu
      · exact .inl hu
      · exact .inr (by rw [List.mem_singleton.mp hu])

end Table

namespace Forest

variable {f g : Forest} {i j : Nat} {m : Mark}

/-- Whether there is no table around table `i`. -/
def isRoot (f : Forest) (i : Nat) : Bool := (f.entry i).outer.isNone

/-- One table is edited. -/
def Edits (f g : Forest) : Prop :=
  ∃ i < f.entries.size, ∃ t, (f.table i).Edit (f.isRoot i) t ∧ g = f.setTable i t

/-- To resolve a name is to edit tables, one after the other. -/
theorem Separate.resolve?_edits (h : f.Separate) (hi : i < f.entries.size) {name : String}
    {s : Symbol} (hr : f.resolve? i name = some (s, g)) :
    Relation.ReflTransGen Edits f g ∧ s.name = name := by
  induction i using Nat.strongRecOn generalizing s g with
  | ind i ih =>
    have hchain := h.chain_eq i
    rw [resolve?, hchain, resolveIn] at hr
    cases hfind : (f.table i).find? name with
    | some u =>
      rw [hfind] at hr
      cases hr
      exact ⟨.refl, Table.name_of_find? hfind⟩
    | none =>
      rw [hfind] at hr
      cases ho : (f.entry i).outer with
      | none =>
        rw [ho] at hr
        cases hr
      | some j =>
        rw [ho] at hr
        have hj := h.older i j ho
        have hsize := Nat.lt_trans hj hi
        obtain ⟨-, hnone⟩ | ⟨u, ts, g₁, -, hsome, hb⟩ := h.resolve?_cases name hsize
        · rw [resolve?] at hnone
          rw [Option.map_some, Option.getD_some, hnone] at hr
          cases hr
        · obtain ⟨hedits, hname⟩ := ih j hj hsize hsome
          rw [resolve?] at hsome
          rw [Option.map_some, Option.getD_some, hsome] at hr
          dsimp only at hr
          split at hr
          · cases hr
            exact ⟨hedits, hname⟩
          · rename_i hshared
            cases hr
            have hinner : g₁.table i = f.table i :=
              hb.table_inner (fun k hk => Nat.lt_of_le_of_lt ((h.chain_pairwise j).2 k hk) hj) hi
            refine ⟨hedits.tail ⟨i, hb.shape.entries ▸ hi, _, .capture ?_ ?_ ?_, rfl⟩, hname⟩
            · rw [isRoot, hb.shape.outer, ho]
              rfl
            · exact Bool.eq_false_iff.mpr hshared
            · rw [hname, hinner, hfind]

theorem SameShape.isRoot (h : f.SameShape g) (i : Nat) : g.isRoot i = f.isRoot i := by
  rw [Forest.isRoot, Forest.isRoot, h.outer]

private theorem view_setTable (f : Forest) (i : Nat) (t : Table)
    (h : (f.entry i).state.sheet ≠ m.sheet) : (f.setTable i t).view m = f.view m := by
  rw [view, setTable, getD_setIfInBounds, if_neg fun he => h he.1]
  rfl

private theorem Separate.table_mark (h : f.Separate) (i : Nat) (hj : j < f.entries.size) :
    (f.mark i).2.table j = f.table j :=
  view_of_lt rfl (h.held j hj)

section Reset

variable {n : Nat} (hn : f.marks[n]? = some m)
include hn

theorem reset_eq (i : Nat) : f.reset i n =
    { f with entries := f.entries.setIfInBounds i { f.entry i with state := m } } := by
  rw [reset, hn]

theorem entry_reset (i j : Nat) : (f.reset i n).entry j =
    if i = j ∧ j < f.entries.size then { f.entry i with state := m } else f.entry j := by
  rw [reset_eq hn]
  exact getD_setIfInBounds ..

theorem table_reset (hi : i < f.entries.size) (j : Nat) :
    (f.reset i n).table j = if j = i then f.view m else f.table j := by
  rw [table, entry_reset hn, reset_eq hn]
  by_cases hj : j = i
  · subst hj
    rw [if_pos ⟨rfl, hi⟩, if_pos rfl]
    rfl
  · rw [if_neg fun he => hj he.1.symm, if_neg hj]
    rfl

theorem outer_reset (i j : Nat) : ((f.reset i n).entry j).outer = (f.entry j).outer := by
  rw [entry_reset hn]
  split
  · rename_i he
    rw [he.1]
  · rfl

theorem isRoot_reset (i j : Nat) : (f.reset i n).isRoot j = f.isRoot j := by
  rw [isRoot, outer_reset hn, isRoot]

theorem size_reset (i : Nat) : (f.reset i n).entries.size = f.entries.size := by
  rw [reset_eq hn]
  exact Array.size_setIfInBounds

/-- The table works on the sheet of the mark, and every other one on its own. -/
theorem sheet_reset (i j : Nat) (hj : j < f.entries.size) : ((f.reset i n).entry j).state.sheet =
    if j = i then m.sheet else (f.entry j).state.sheet := by
  rw [entry_reset hn]
  by_cases hji : j = i
  · rw [if_pos ⟨hji.symm, hj⟩, if_pos hji]
  · rw [if_neg fun he => hji he.1.symm, if_neg hji]

theorem Separate.reset (h : f.Separate) (i : Nat) (hm : m.sheet < f.sheets.size)
    (ha : ∀ j < f.entries.size, (f.entry j).state.sheet ≠ m.sheet) : (f.reset i n).Separate where
  held j hj := by
    rw [size_reset hn] at hj
    rw [sheet_reset hn i j hj, reset_eq hn]
    split
    · exact hm
    · exact h.held j hj
  apart j hj k hk he := by
    rw [size_reset hn] at hj hk
    rw [sheet_reset hn i j hj, sheet_reset hn i k hk] at he
    split at he <;> split at he <;> rename_i hji hki
    · exact hji.trans hki.symm
    · exact absurd he.symm (ha k hk)
    · exact absurd he (ha j hj)
    · exact h.apart j hj k hk he
  older j k ho := h.older j k (outer_reset hn i j ▸ ho)

end Reset

end Forest

/-- A mark that has not been used: its number, the table it was taken of, and what that table held
then. -/
structure Snapshot where
  mark : Nat
  table : Nat
  contents : Table

/-- Tables, and the marks to which they can still be put back. -/
structure Workbook where
  forest : Forest := {}
  unused : List Snapshot := []

namespace Workbook

/-- The mark that is taken of table `i`. -/
def snapshot (x : Workbook) (i : Nat) : Snapshot := ⟨(x.forest.mark i).1, i, x.forest.table i⟩

def mark (x : Workbook) (i : Nat) : Workbook := ⟨(x.forest.mark i).2, x.snapshot i :: x.unused⟩

/-- Puts a table back to a mark of its own, which is used up by that. -/
def restore (x : Workbook) (p : Snapshot) : Workbook :=
  ⟨x.forest.reset p.table p.mark, x.unused.filter (·.mark ≠ p.mark)⟩

/-- One operation on a table that is there. A name that cannot be resolved changes nothing. -/
inductive Step (x : Workbook) : Workbook → Prop
  | new (outer : Option Nat) : (∀ j ∈ outer, j < x.forest.entries.size) →
    Step x { x with forest := (x.forest.add outer {}).2 }
  | define {i : Nat} (name : String) : i < x.forest.entries.size →
    Step x { x with forest := (x.forest.define i name).2 }
  | defineBuiltin {i : Nat} (index : Int) (name : String) : i < x.forest.entries.size →
    Step x { x with forest := (x.forest.defineBuiltin i index name).2 }
  | defineFunctionName {i : Nat} (name : String) : i < x.forest.entries.size →
    Step x { x with forest := (x.forest.defineFunctionName i name).2 }
  | resolve {i : Nat} (name : String) : i < x.forest.entries.size →
    Step x { x with forest := ((x.forest.resolve? i name).map Prod.snd).getD x.forest }
  | mark {i : Nat} : i < x.forest.entries.size → Step x (x.mark i)
  | reset {p : Snapshot} : p ∈ x.unused → Step x (x.restore p)

/-- One operation after the other. -/
def Steps : Workbook → Workbook → Prop := Relation.ReflTransGen Step

/-- The sheet of the mark holds what the table held, and no table works on it. -/
structure Preserves (f : Forest) (p : Snapshot) (m : Mark) : Prop where
  mark : f.marks[p.mark]? = some m
  table : p.table < f.entries.size
  kept : p.contents.WellKept (f.isRoot p.table)
  contents : f.view m = p.contents
  apart : ∀ i < f.entries.size, (f.entry i).state.sheet ≠ m.sheet

/-- Every table is well kept, and so is what can still be brought back. -/
structure Kept (x : Workbook) : Prop where
  separate : x.forest.Separate
  tables : ∀ i < x.forest.entries.size, (x.forest.table i).WellKept (x.forest.isRoot i)
  held : ∀ (n : Nat) (m : Mark), x.forest.marks[n]? = some m → m.sheet < x.forest.sheets.size
  apart : ∀ (n n' : Nat) (m m' : Mark), x.forest.marks[n]? = some m →
    x.forest.marks[n']? = some m' → m.sheet = m'.sheet → n = n'
  unused : ∀ p ∈ x.unused, ∃ m, Preserves x.forest p m

variable {x y : Workbook} {f g : Forest} {i : Nat}

theorem Kept.empty : Kept {} where
  separate := Forest.Built.empty.separate
  tables i hi := absurd hi (Nat.not_lt_zero i)
  held n m hm := by cases hm
  apart n n' m m' hm := by cases hm
  unused := List.forall_mem_nil _

theorem Kept.edit (h : x.Kept) (he : x.forest.Edits g) : Kept { x with forest := g } := by
  obtain ⟨i, hi, t, ht, rfl⟩ := he
  have hshape := Forest.sameShape_setTable x.forest i t
  refine ⟨hshape.separate h.separate, fun j hj => ?_, fun n m hm => ?_, h.apart, fun p hp => ?_⟩
  · replace hj : j < x.forest.entries.size := hshape.entries ▸ hj
    rw [h.separate.table_setTable hi hj, hshape.isRoot]
    split
    · rename_i hji
      rw [hji]
      exact ht.wellKept (h.tables i hi)
    · exact h.tables j hj
  · rw [hshape.sheets]
    exact h.held n m hm
  · obtain ⟨m, hm⟩ := h.unused p hp
    refine ⟨m, hm.mark, hshape.entries ▸ hm.table, ?_, ?_, fun j hj => ?_⟩
    · rw [hshape.isRoot]
      exact hm.kept
    · rw [Forest.view_setTable _ _ _ (hm.apart i hi), hm.contents]
    · rw [hshape.sheet]
      exact hm.apart j (hshape.entries ▸ hj)

private theorem Kept.edits (h : x.Kept) (he : Relation.ReflTransGen Forest.Edits x.forest g) :
    Kept { x with forest := g } := by
  induction he with
  | refl => exact h
  | tail _ he ih => exact ih.edit he

theorem Kept.new (h : x.Kept) {outer : Option Nat}
    (ho : ∀ j ∈ outer, j < x.forest.entries.size) :
    Kept { x with forest := (x.forest.add outer {}).2 } := by
  have hentries : (x.forest.add outer {}).2.entries.size = x.forest.entries.size + 1 :=
    Array.size_push _
  have hsheets : (x.forest.add outer {}).2.sheets.size = x.forest.sheets.size + 1 :=
    Array.size_push _
  have hroot : ∀ j < x.forest.entries.size,
      (x.forest.add outer {}).2.isRoot j = x.forest.isRoot j := by
    intro j hj
    rw [Forest.isRoot, Forest.entry_add, if_neg (Nat.ne_of_lt hj)]
    rfl
  refine ⟨h.separate.add ho {}, fun j hj => ?_, fun n m hm => ?_, h.apart, fun p hp => ?_⟩
  · replace hj : j < x.forest.entries.size + 1 := hentries ▸ hj
    rw [h.separate.table_add outer {} hj]
    split
    · exact Table.wellKept_empty _
    · have hlt : j < x.forest.entries.size := by omega
      rw [hroot j hlt]
      exact h.tables j hlt
  · rw [hsheets]
    exact Nat.lt_succ_of_lt (h.held n m hm)
  · obtain ⟨m, hm⟩ := h.unused p hp
    have hlt := h.held p.mark m hm.mark
    refine ⟨m, hm.mark, hentries ▸ Nat.lt_succ_of_lt hm.table, ?_, ?_, fun j hj => ?_⟩
    · rw [hroot p.table hm.table]
      exact hm.kept
    · exact (Forest.view_of_lt rfl hlt).trans hm.contents
    · replace hj : j < x.forest.entries.size + 1 := hentries ▸ hj
      rw [Forest.entry_add]
      split
      · exact Nat.ne_of_gt hlt
      · exact hm.apart j (by omega)

theorem Kept.mark (h : x.Kept) (hi : i < x.forest.entries.size) : (x.mark i).Kept := by
  have hsheets : (x.forest.mark i).2.sheets.size = x.forest.sheets.size + 1 := Array.size_push _
  have hmarks : ∀ n m, (x.forest.mark i).2.marks[n]? = some m →
      n = x.forest.marks.size ∧ m.sheet = x.forest.sheets.size ∨
        x.forest.marks[n]? = some m ∧ m.sheet < x.forest.sheets.size := by
    intro n m hm
    rw [Forest.mark, Array.getElem?_push] at hm
    split at hm
    · rename_i hn
      cases hm
      exact .inl ⟨hn, rfl⟩
    · exact .inr ⟨hm, h.held n m hm⟩
  refine ⟨⟨?_, h.separate.apart, h.separate.older⟩, fun j hj => ?_, fun n m hm => ?_,
    fun n n' m m' hm hm' he => ?_, List.forall_mem_cons.mpr ⟨?_, fun p hp => ?_⟩⟩
  · exact fun j hj => Nat.lt_trans (h.separate.held j hj) (hsheets ▸ Nat.lt_succ_self _)
  · exact h.separate.table_mark i hj ▸ h.tables j hj
  · show m.sheet < (x.forest.mark i).2.sheets.size
    obtain ⟨-, hs⟩ | ⟨-, hs⟩ := hmarks n m hm <;> omega
  · obtain ⟨hn, hs⟩ | ⟨hn, hs⟩ := hmarks n m hm <;>
      obtain ⟨hn', hs'⟩ | ⟨hn', hs'⟩ := hmarks n' m' hm'
    · exact hn.trans hn'.symm
    · omega
    · omega
    · exact h.apart n n' m m' hn hn' he
  · refine ⟨⟨x.forest.sheets.size, (x.forest.table i).numDefinitions⟩, ?_, hi, h.tables i hi, ?_,
      fun j hj => Nat.ne_of_lt (h.separate.held j hj)⟩
    · exact Array.getElem?_push_size
    · exact Forest.view_size rfl
  · obtain ⟨m, hm⟩ := h.unused p hp
    have hlt := h.held p.mark m hm.mark
    refine ⟨m, ?_, hm.table, hm.kept, (Forest.view_of_lt rfl hlt).trans hm.contents, hm.apart⟩
    have hn : p.mark < x.forest.marks.size := (Array.getElem?_eq_some_iff.mp hm.mark).1
    exact (Array.getElem?_push_lt hn).trans ((Array.getElem?_eq_getElem hn).symm.trans hm.mark)

theorem Kept.restore (h : x.Kept) {p : Snapshot} (hp : p ∈ x.unused) : (x.restore p).Kept := by
  obtain ⟨m, hm⟩ := h.unused p hp
  have hsize := Forest.size_reset hm.mark p.table
  have heq := Forest.reset_eq hm.mark p.table
  have hmarks : (x.forest.reset p.table p.mark).marks = x.forest.marks := by rw [heq]
  refine ⟨h.separate.reset hm.mark p.table (h.held p.mark m hm.mark) hm.apart, fun j hj => ?_,
    fun n m' hm' => ?_, fun n n' m' m'' hm' hm'' => ?_, fun q hq => ?_⟩
  · rw [Workbook.restore, Forest.isRoot_reset hm.mark, Forest.table_reset hm.mark hm.table]
    split
    · rename_i hj
      rw [hm.contents, hj]
      exact hm.kept
    · exact h.tables j (hsize ▸ hj)
  · rw [Workbook.restore, heq]
    exact h.held n m' (hmarks ▸ hm')
  · exact h.apart n n' m' m'' (hmarks ▸ hm') (hmarks ▸ hm'')
  · obtain ⟨hq, hne⟩ := List.mem_filter.mp hq
    obtain ⟨m', hm'⟩ := h.unused q hq
    refine ⟨m', hmarks.symm ▸ hm'.mark, hsize.symm ▸ hm'.table, ?_, ?_, fun j hj => ?_⟩
    · rw [Workbook.restore, Forest.isRoot_reset hm.mark]
      exact hm'.kept
    · rw [Workbook.restore, heq]
      exact hm'.contents
    · replace hj : j < x.forest.entries.size := hsize ▸ hj
      rw [Workbook.restore, Forest.sheet_reset hm.mark p.table j hj]
      split
      · exact fun he => of_decide_eq_true hne (h.apart _ _ _ _ hm'.mark hm.mark he.symm)
      · exact hm'.apart j hj

theorem Kept.step (h : x.Kept) (hs : x.Step y) : y.Kept := by
  cases hs with
  | new _ ho => exact h.new ho
  | define name hi => exact h.edit ⟨_, hi, _, .define name, rfl⟩
  | defineBuiltin index name hi => exact h.edit ⟨_, hi, _, .defineBuiltin index name, rfl⟩
  | defineFunctionName name hi => exact h.edit ⟨_, hi, _, .defineFunctionName name, rfl⟩
  | @resolve i name hi =>
    cases hr : x.forest.resolve? i name with
    | none => exact h
    | some found => exact h.edits (h.separate.resolve?_edits hi hr).1
  | mark hi => exact h.mark hi
  | reset hp => exact h.restore hp

theorem Steps.kept (hs : Steps x y) (h : x.Kept) : y.Kept := by
  induction hs with
  | refl => exact h
  | tail _ hs ih => exact ih.step hs

/-- Whatever is done with tables, each of them stays well kept. A table that is put back to a mark
holds again what it held when the mark was taken, whatever was done in between, and no other table
changes then. -/
theorem Steps.wellKept_and_restored (hs : Steps {} x) :
    (∀ i < x.forest.entries.size, (x.forest.table i).WellKept (x.forest.isRoot i)) ∧
    ∀ i < x.forest.entries.size, ∀ y, Steps (x.mark i) y → x.snapshot i ∈ y.unused →
      ∀ j, (y.forest.reset i (x.forest.mark i).1).table j =
        if j = i then x.forest.table i else y.forest.table j := by
  have h := hs.kept .empty
  refine ⟨h.tables, fun i hi y hy hp j => ?_⟩
  obtain ⟨m, hm⟩ := (hy.kept (h.mark hi)).unused _ hp
  have hcontents : y.forest.view m = x.forest.table i := hm.contents
  rw [← hcontents]
  exact Forest.table_reset hm.mark hm.table j

/-- A function inside another one, which has a variable. -/
def enclosed : Workbook :=
  let f := (Forest.add {} none {}).2
  let f := (f.add (some 0) {}).2
  let f := (f.define 1 "a").2
  { forest := (f.add (some 1) {}).2 }

/-- The inner function captures the variable, and then defines one of the same name. -/
def shadowed : Workbook :=
  let x := enclosed.mark 2
  let f := ((x.forest.resolve? 2 "a").map Prod.snd).getD x.forest
  { x with forest := (f.define 2 "a").2 }

theorem steps_enclosed : Steps {} enclosed := by
  refine .tail (.tail (.tail (.tail .refl (.new none ?_)) (.new (some 0) ?_)) (.define "a" ?_))
    (.new (some 1) ?_) <;> decide +kernel

theorem steps_shadowed : Steps (enclosed.mark 2) shadowed := by
  refine .tail (.tail .refl (.resolve (i := 2) "a" ?_)) (.define "a" ?_) <;> decide +kernel

/-- The inner function is put back to where it had neither. -/
theorem Steps.wellKept_and_restored_shadowed :
    Steps {} enclosed ∧ Steps (enclosed.mark 2) shadowed ∧
      enclosed.snapshot 2 ∈ shadowed.unused ∧
      shadowed.forest.table 2 = ⟨[⟨"a", .frame, 0⟩], 1, [⟨"a", .frame, 0⟩]⟩ ∧
      (shadowed.forest.table 2).WellKept false ∧
      (shadowed.forest.reset 2 0).table 2 = {} := by
  have hlt : 2 < enclosed.forest.entries.size := by decide +kernel
  have hsteps : Steps {} shadowed :=
    (steps_enclosed.tail (.mark hlt)).trans steps_shadowed
  have hunused : enclosed.snapshot 2 ∈ shadowed.unused := List.mem_cons_self
  refine ⟨steps_enclosed, steps_shadowed, hunused, by decide +kernel, ?_, ?_⟩
  · have hkept := hsteps.wellKept_and_restored.1 2 (by decide +kernel)
    have hroot : shadowed.forest.isRoot 2 = false := by decide +kernel
    rwa [hroot] at hkept
  · have hrestored := steps_enclosed.wellKept_and_restored.2 2 hlt shadowed steps_shadowed hunused 2
    rw [if_pos rfl] at hrestored
    exact hrestored.trans (by decide +kernel)

end Workbook

end ClosureVM
