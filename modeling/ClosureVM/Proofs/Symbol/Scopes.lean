import Mathlib.Data.List.Forall2
import ClosureVM.Symbol.Environment

/-! Well-formed scopes: every symbol of a table names a place that exists, and what a function
captures is held by the table around it. -/
namespace ClosureVM

theorem forall₂_trans {α : Type} {R : α → α → Prop} {l l' l'' : List α}
    (hR : ∀ {a b c}, R a b → R b c → R a c) (h : List.Forall₂ R l l')
    (h' : List.Forall₂ R l' l'') : List.Forall₂ R l l'' := by
  induction h generalizing l'' with
  | nil => exact h'
  | cons ha _ ih =>
    cases h' with
    | cons hb h' => exact .cons (hR ha hb) (ih h')

/-- A symbol of a function's own table. -/
def Table.Holds (t : Table) (s : Symbol) : Prop :=
  match s.storage with
  | .frame => ∃ i : Nat, s.index = i ∧ i < t.numDefinitions
  | .free => ∃ i : Nat, s.index = i ∧ i < t.free.length
  | .self => True
  | .global | .builtin => False

/-- A symbol that every scope can reach. -/
def Symbol.IsShared (s : Symbol) : Prop :=
  match s.storage with
  | .global => 0 ≤ s.index
  | .builtin => ∃ i : Nat, s.index = i ∧ i < Builtin.all.length
  | _ => False

/-- A table that has been added to. -/
structure Table.Grows (t t' : Table) : Prop where
  numDefinitions : t.numDefinitions ≤ t'.numDefinitions
  free : t.free <+: t'.free

namespace Table

variable {t t' t'' : Table} {s : Symbol}

theorem Grows.refl (t : Table) : t.Grows t := ⟨Nat.le_refl _, List.prefix_rfl⟩

theorem Grows.trans (h : t.Grows t') (h' : t'.Grows t'') : t.Grows t'' :=
  ⟨Nat.le_trans h.1 h'.1, h.2.trans h'.2⟩

theorem Holds.mono (h : t.Holds s) (hg : t.Grows t') : t'.Holds s := by
  unfold Holds at h ⊢
  cases hs : s.storage with
  | frame =>
    rw [hs] at h
    obtain ⟨i, hi, hl⟩ := h
    exact ⟨i, hi, Nat.lt_of_lt_of_le hl hg.1⟩
  | free =>
    rw [hs] at h
    obtain ⟨i, hi, hl⟩ := h
    exact ⟨i, hi, Nat.lt_of_lt_of_le hl hg.2.length_le⟩
  | self => trivial
  | global | builtin =>
    rw [hs] at h
    exact h

/-- Every symbol of a function's table is one that it holds. -/
def Closed (t : Table) : Prop := ∀ s ∈ t.symbols, t.Holds s

theorem mem_insert {u : Symbol} (h : u ∈ (t.insert s).symbols) : u = s ∨ u ∈ t.symbols := by
  rw [insert, List.mem_cons, List.mem_filter] at h
  exact h.imp_right And.left

theorem Closed.insert (h : t.Closed) (hg : t.Grows t') (hs : t'.Holds s)
    (ht : t'.symbols = (t.insert s).symbols) : t'.Closed := by
  intro u hu
  rw [ht] at hu
  obtain rfl | hu := mem_insert hu
  · exact hs
  · exact (h u hu).mono hg

theorem Closed.define (h : t.Closed) (name : String) :
    (t.define .frame name).2.Closed ∧ t.Grows (t.define .frame name).2 := by
  have hg : t.Grows (t.define .frame name).2 := ⟨Nat.le_succ _, List.prefix_rfl⟩
  have hs : (t.define .frame name).2.Holds (t.define .frame name).1 :=
    ⟨t.numDefinitions, rfl, Nat.lt_succ_self _⟩
  exact ⟨h.insert hg hs rfl, hg⟩

theorem Closed.defineFunctionName (h : t.Closed) (name : String) :
    (t.defineFunctionName name).2.Closed ∧ t.Grows (t.defineFunctionName name).2 := by
  have hg : t.Grows (t.defineFunctionName name).2 := ⟨Nat.le_refl _, List.prefix_rfl⟩
  have hs : (t.defineFunctionName name).2.Holds (t.defineFunctionName name).1 := trivial
  exact ⟨h.insert hg hs rfl, hg⟩

theorem Closed.capture (h : t.Closed) (outer : Symbol) :
    (t.capture outer).2.Closed ∧ t.Grows (t.capture outer).2 ∧
      (t.capture outer).2.Holds (t.capture outer).1 := by
  have hg : t.Grows (t.capture outer).2 := ⟨Nat.le_refl _, List.prefix_append ..⟩
  have hs : (t.capture outer).2.Holds (t.capture outer).1 :=
    ⟨t.free.length, rfl, by simp [Table.capture]⟩
  exact ⟨h.insert hg hs rfl, hg, hs⟩

end Table

/-- Globals are numbered below the number of definitions. -/
def Table.Numbered (t : Table) : Prop :=
  ∀ s ∈ t.symbols, s.storage = .global → s.index < t.numDefinitions

theorem Table.Numbered.define {t : Table} (h : t.Numbered) (name : String) :
    (t.define .global name).2.Numbered := by
  intro s hs hg
  have hnum : (t.define .global name).2.numDefinitions = t.numDefinitions + 1 := rfl
  rw [hnum]
  obtain rfl | hs := Table.mem_insert hs
  · change (t.numDefinitions : Int) < _
    omega
  · have := h s hs hg
    omega

/-- The symbol belongs to the innermost of the tables. -/
def HeldBy : List Table → Symbol → Prop
  | [], _ => False
  | t :: _, s => t.Holds s

/-- Tables of nested functions, innermost first. -/
def TablesClosed : List Table → Prop
  | [] => True
  | t :: outer => t.Closed ∧ (∀ s ∈ t.free, HeldBy outer s) ∧ TablesClosed outer

theorem HeldBy.mono {nested nested' : List Table} {s : Symbol} (h : HeldBy nested s)
    (hg : List.Forall₂ Table.Grows nested nested') : HeldBy nested' s := by
  cases hg with
  | nil => exact h
  | cons hg _ => exact Table.Holds.mono h hg

theorem HeldBy.storage {nested : List Table} {s : Symbol} (h : HeldBy nested s) :
    s.storage.isShared = false := by
  cases nested with
  | nil => exact absurd h id
  | cons t outer =>
    simp only [HeldBy, Table.Holds] at h
    cases hs : s.storage <;> rw [hs] at h <;> first | rfl | exact absurd h id

theorem Symbol.IsShared.storage {s : Symbol} (h : s.IsShared) : s.storage.isShared = true := by
  simp only [Symbol.IsShared] at h
  cases hs : s.storage <;> rw [hs] at h <;> first | rfl | exact absurd h id

namespace Environment

/-- All symbols in scope name places that exist. -/
structure Closed (env : Environment) : Prop where
  global : ∀ s ∈ env.global.symbols, s.IsShared
  nested : TablesClosed env.nested

/-- What a symbol found in an environment refers to. -/
def Sees (env : Environment) (s : Symbol) : Prop := s.IsShared ∨ HeldBy env.nested s

/-- Functions are the same, with tables that have been added to. -/
def Grows (env env' : Environment) : Prop := List.Forall₂ Table.Grows env.nested env'.nested

theorem find?_mem {t : Table} {name : String} {s : Symbol} (h : t.find? name = some s) :
    s ∈ t.symbols := List.mem_of_find?_eq_some h

theorem resolveIn_closed {global : Table} {name : String} {nested nested' : List Table}
    {s : Symbol} (hg : ∀ s ∈ global.symbols, s.IsShared) (hn : TablesClosed nested)
    (h : resolveIn global name nested = some (s, nested')) :
    TablesClosed nested' ∧ List.Forall₂ Table.Grows nested nested' ∧
      (s.IsShared ∨ HeldBy nested' s) := by
  induction nested generalizing s nested' with
  | nil =>
    obtain ⟨_, hf, ⟨⟩⟩ := Option.map_eq_some_iff.mp h
    exact ⟨trivial, .nil, .inl (hg s (find?_mem hf))⟩
  | cons t outer ih =>
    obtain ⟨ht, hfree, ho⟩ := hn
    rw [resolveIn] at h
    split at h
    · rename_i hf
      cases h
      refine ⟨⟨ht, hfree, ho⟩, ?_, .inr (ht s (find?_mem hf))⟩
      exact List.forall₂_same.mpr fun t _ => .refl t
    · split at h
      · cases h
      · rename_i u outer' hr
        obtain ⟨ho', hgrow, hu⟩ := ih ho hr
        have hfree' : ∀ s ∈ t.free, HeldBy outer' s := fun s hs => (hfree s hs).mono hgrow
        split at h
        · rename_i hshared
          cases h
          refine ⟨⟨ht, hfree', ho'⟩, .cons (.refl t) hgrow, .inl ?_⟩
          refine hu.resolve_right fun hu => ?_
          rw [hu.storage] at hshared
          cases hshared
        · rename_i hshared
          cases h
          have hu : HeldBy outer' u := hu.resolve_left fun hu => hshared hu.storage
          obtain ⟨hc, hg', hs⟩ := ht.capture u
          refine ⟨⟨hc, ?_, ho'⟩, .cons hg' hgrow, .inr hs⟩
          intro s hs
          obtain hs | hs := List.mem_append.mp hs
          · exact hfree' s hs
          · rw [List.mem_singleton.mp hs]
            exact hu

variable {env env' : Environment}

theorem Closed.resolve? (h : env.Closed) {name : String} {s : Symbol}
    (hr : env.resolve? name = some (s, env')) :
    env'.Closed ∧ env.Grows env' ∧ env'.Sees s ∧ env'.global = env.global := by
  obtain ⟨⟨_, nested⟩, hin, ⟨⟩⟩ := Option.map_eq_some_iff.mp hr
  obtain ⟨hn, hg, hs⟩ := resolveIn_closed h.global h.nested hin
  exact ⟨⟨h.global, hn⟩, hg, hs, rfl⟩

theorem Grows.refl (env : Environment) : env.Grows env :=
  List.forall₂_same.mpr fun t _ => .refl t

theorem Grows.trans {env'' : Environment} (h : env.Grows env') (h' : env'.Grows env'') :
    env.Grows env'' := forall₂_trans .trans h h'

theorem Closed.define (h : env.Closed) (name : String) :
    (env.define name).2.Closed ∧ env.Grows (env.define name).2 := by
  obtain ⟨hg, hn⟩ := h
  unfold Environment.define Grows
  cases hnested : env.nested with
  | nil =>
    rw [hnested] at hn
    refine ⟨⟨fun s hs => ?_, by simpa only [hnested] using hn⟩, by simp⟩
    obtain rfl | hs := Table.mem_insert hs
    · exact Int.natCast_nonneg _
    · exact hg s hs
  | cons t outer =>
    rw [hnested] at hn
    obtain ⟨ht, hfree, ho⟩ := hn
    obtain ⟨hc, hgrow⟩ := ht.define name
    exact ⟨⟨hg, hc, hfree, ho⟩, .cons hgrow (List.forall₂_same.mpr fun t _ => .refl t)⟩

/-- The environment inside a function: a table with the function's own name and its
parameters. -/
theorem Closed.foldl_define (names : List String) {t : Table} {outer : List Table}
    (h : env.Closed) (hn : env.nested = t :: outer) :
    ∃ t', names.foldl (fun env name => (env.define name).2) env =
        { env with nested := t' :: outer } ∧
      t'.Closed ∧ t'.free = t.free ∧ t'.numDefinitions = t.numDefinitions + names.length := by
  induction names generalizing env t with
  | nil =>
    refine ⟨t, ?_, ?_, rfl, rfl⟩
    · rw [List.foldl_nil, ← hn]
    · have := h.nested
      rw [hn] at this
      exact this.1
  | cons name names ih =>
    have hd : (env.define name).2.nested = (t.define .frame name).2 :: outer := by
      rw [Environment.define, hn]
    obtain ⟨t', he, hc, hf, hnum⟩ := ih (h.define name).1 hd
    refine ⟨t', ?_, hc, hf, ?_⟩
    · rw [List.foldl_cons, he]
      simp [Environment.define, hn]
    · rw [hnum, List.length_cons]
      simp [Table.define]
      omega

end Environment
end ClosureVM
