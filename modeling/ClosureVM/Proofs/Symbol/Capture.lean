import ClosureVM.Proofs.Symbol.Scopes

/-! How tables change while a function inside is compiled: they capture further names, and no name
comes to mean anything else. -/
namespace ClosureVM

/-- A table that has captured further names. -/
structure Table.Captures (t t' : Table) : Prop where
  numDefinitions : t'.numDefinitions = t.numDefinitions
  free : t.free <+: t'.free
  kept : ∀ name s, t.find? name = some s → t'.find? name = some s
  new : ∀ name s, t.find? name = none → t'.find? name = some s →
    ∃ (i : Nat) (u : Symbol), s = ⟨name, .free, i⟩ ∧ t'.free[i]? = some u ∧ u.name = name

namespace Table

variable {t t' t'' : Table} {s : Symbol} {name : String}

theorem name_of_find? (h : t.find? name = some s) : s.name = name := by
  unfold find? at h
  have hs := List.find?_some h
  exact of_decide_eq_true hs

theorem Captures.refl (t : Table) : t.Captures t where
  numDefinitions := rfl
  free := List.prefix_rfl
  kept _ _ h := h
  new _ _ h h' := by
    rw [h] at h'
    cases h'

theorem Captures.trans (h : t.Captures t') (h' : t'.Captures t'') : t.Captures t'' where
  numDefinitions := h'.numDefinitions.trans h.numDefinitions
  free := h.free.trans h'.free
  kept name s hs := h'.kept name s (h.kept name s hs)
  new name s hn hs := by
    cases hm : t'.find? name with
    | none => exact h'.new name s hm hs
    | some s' =>
      have hs' := h'.kept name s' hm
      rw [hs] at hs'
      cases hs'
      obtain ⟨i, u, rfl, hu, hname⟩ := h.new name s hn hm
      obtain ⟨rest, hr⟩ := h'.free
      refine ⟨i, u, rfl, ?_, hname⟩
      rw [← hr, List.getElem?_append_left (List.getElem?_eq_some_iff.mp hu).1, hu]

theorem Captures.grows (h : t.Captures t') : t.Grows t' := ⟨Nat.le_of_eq h.numDefinitions.symm, h.free⟩

theorem find?_capture (t : Table) (outer : Symbol) (name : String) :
    (t.capture outer).2.find? name =
      if name = outer.name then some ⟨outer.name, .free, t.free.length⟩ else t.find? name :=
  t.find?_insert _ name

private theorem captures_capture (t : Table) {outer : Symbol} (h : t.find? outer.name = none) :
    t.Captures (t.capture outer).2 where
  numDefinitions := rfl
  free := List.prefix_append ..
  kept name s hs := by
    rw [find?_capture, if_neg, hs]
    rintro rfl
    rw [h] at hs
    cases hs
  new name s hn hs := by
    rw [find?_capture] at hs
    split at hs
    · rename_i he
      cases hs
      exact ⟨t.free.length, outer, by rw [he], by simp [Table.capture], he.symm⟩
    · rw [hn] at hs
      cases hs

end Table

/-- The innermost of the tables knows the symbol by its name. -/
def KnownTo (nested : List Table) (s : Symbol) : Prop :=
  ∃ t outer, nested = t :: outer ∧ t.find? s.name = some s

/-- What a function captures is known in the scope around it. -/
def Linked : List Table → Prop
  | [] => True
  | t :: outer => (∀ s ∈ t.free, KnownTo outer s) ∧ Linked outer

theorem KnownTo.mono {nested nested' : List Table} {s : Symbol} (h : KnownTo nested s)
    (hc : List.Forall₂ Table.Captures nested nested') : KnownTo nested' s := by
  obtain ⟨t, outer, rfl, hs⟩ := h
  cases hc with
  | cons ht _ => exact ⟨_, _, rfl, ht.kept _ _ hs⟩

namespace Environment

/-- Where a name is found, and that looking for it only captures it. -/
theorem resolveIn_captures {global : Table} {name : String} {nested nested' : List Table}
    {s : Symbol} (hg : ∀ s ∈ global.symbols, s.IsShared) (hn : TablesClosed nested)
    (hl : Linked nested) (h : resolveIn global name nested = some (s, nested')) :
    List.Forall₂ Table.Captures nested nested' ∧ Linked nested' ∧ s.name = name ∧
      ((∀ t ∈ nested, t.find? name = none) ∧ global.find? name = some s ∨ KnownTo nested' s) := by
  induction nested generalizing s nested' with
  | nil =>
    obtain ⟨_, hf, ⟨⟩⟩ := Option.map_eq_some_iff.mp h
    exact ⟨.nil, trivial, Table.name_of_find? hf, .inl ⟨List.forall_mem_nil _, hf⟩⟩
  | cons t outer ih =>
    obtain ⟨ht, hfree, ho⟩ := hn
    obtain ⟨hknown, hlo⟩ := hl
    rw [resolveIn] at h
    split at h
    · rename_i hf
      cases h
      have hname := Table.name_of_find? hf
      refine ⟨List.forall₂_same.mpr fun t _ => .refl t, ⟨hknown, hlo⟩, hname, .inr ?_⟩
      exact ⟨t, outer, rfl, hname ▸ hf⟩
    · rename_i hf
      split at h
      · cases h
      · rename_i u outer' hr
        obtain ⟨hc, hl', hname, hu⟩ := ih ho hlo hr
        obtain ⟨ho', -, -⟩ := resolveIn_closed hg ho hr
        have hknown' : ∀ s ∈ t.free, KnownTo outer' s := fun s hs => (hknown s hs).mono hc
        split at h
        · rename_i hshared
          cases h
          refine ⟨.cons (.refl t) hc, ⟨hknown', hl'⟩, hname, .inl ?_⟩
          obtain ⟨hnone, hglobal⟩ | ⟨o, rest, rfl, hs⟩ := hu
          · exact ⟨List.forall_mem_cons.mpr ⟨hf, hnone⟩, hglobal⟩
          · have hheld : HeldBy (o :: rest) s := ho'.1 s (find?_mem hs)
            rw [hheld.storage] at hshared
            cases hshared
        · rename_i hshared
          cases h
          have hu : KnownTo outer' u := by
            refine hu.resolve_left fun hu => hshared ?_
            exact (hg u (find?_mem hu.2)).storage
          rw [← hname] at hf
          refine ⟨.cons (t.captures_capture hf) hc, ⟨fun v hv => ?_, hl'⟩, hname, .inr ?_⟩
          · obtain hv | hv := List.mem_append.mp hv
            · exact hknown' v hv
            · rw [List.mem_singleton.mp hv]
              exact hu
          · exact ⟨_, _, rfl, (t.find?_capture u _).trans (if_pos rfl)⟩

/-- Scopes in order: symbols name places that exist, and what is captured is known outside. -/
structure Orderly (env : Environment) : Prop where
  closed : env.Closed
  linked : Linked env.nested

/-- No change but captures. -/
structure Captures (env env' : Environment) : Prop where
  global : env'.global = env.global
  nested : List.Forall₂ Table.Captures env.nested env'.nested

variable {env env' env'' : Environment}

theorem Captures.refl (env : Environment) : env.Captures env :=
  ⟨rfl, List.forall₂_same.mpr fun t _ => .refl t⟩

theorem Orderly.resolve? (h : env.Orderly) {name : String} {s : Symbol}
    (hr : env.resolve? name = some (s, env')) :
    env'.Orderly ∧ env.Captures env' ∧ s.name = name ∧
      ((∀ t ∈ env.nested, t.find? name = none) ∧ env.global.find? name = some s ∨
        KnownTo env'.nested s) := by
  have hclosed := (h.closed.resolve? hr).1
  obtain ⟨⟨_, nested⟩, hin, ⟨⟩⟩ := Option.map_eq_some_iff.mp hr
  obtain ⟨hc, hl, hs⟩ := resolveIn_captures h.closed.global h.closed.nested h.linked hin
  exact ⟨⟨hclosed, hl⟩, ⟨rfl, hc⟩, hs⟩

/-- Bindings are made for the given names, one after the other, besides captures. -/
inductive Evolves : Environment → List String → Environment → Prop
  | captures {env env' : Environment} : env.Captures env' → Evolves env [] env'
  | define (env : Environment) (name : String) : Evolves env [name] (env.define name).2
  | trans {env env' env'' : Environment} {names names' : List String} :
    Evolves env names env' → Evolves env' names' env'' → Evolves env (names ++ names') env''

theorem Evolves.refl (env : Environment) : env.Evolves [] env := .captures (.refl env)

theorem define_nil (h : env.nested = []) (name : String) :
    env.define name = ((env.global.define .global name).1,
      { global := (env.global.define .global name).2 }) := by
  rw [define, h]

theorem define_cons {t : Table} {outer : List Table} (h : env.nested = t :: outer)
    (name : String) :
    env.define name = ((t.define .frame name).1,
      { env with nested := (t.define .frame name).2 :: outer }) := by
  rw [define, h]

/-- Outside of the innermost function, no bindings are made. -/
theorem Evolves.outer {names : List String} (h : env.Evolves names env') {t : Table}
    {outer : List Table} (hn : env.nested = t :: outer) :
    env'.global = env.global ∧
      ∃ t' outer', env'.nested = t' :: outer' ∧ List.Forall₂ Table.Captures outer outer' := by
  induction h generalizing t outer with
  | captures hc =>
    obtain ⟨hg, hc⟩ := hc
    rw [hn] at hc
    obtain ⟨t', outer', -, hc, hn'⟩ := List.forall₂_cons_left_iff.mp hc
    exact ⟨hg, t', outer', hn', hc⟩
  | define env name =>
    rw [define_cons hn]
    exact ⟨rfl, _, _, rfl, List.forall₂_same.mpr fun t _ => .refl t⟩
  | trans _ _ ih ih' =>
    obtain ⟨hg, t', outer', hn', hc⟩ := ih hn
    obtain ⟨hg', t'', outer'', hn'', hc'⟩ := ih' hn'
    exact ⟨hg'.trans hg, t'', outer'', hn'', forall₂_trans .trans hc hc'⟩

/-- The tables only grow. -/
theorem Evolves.grows {names : List String} (h : env.Evolves names env') :
    env.current.Grows env'.current := by
  induction h with
  | @captures env env' hc =>
    obtain ⟨hg, hc⟩ := hc
    unfold current
    cases hn : env.nested with
    | nil =>
      rw [hn] at hc
      rw [List.forall₂_nil_left_iff.mp hc, hg]
      exact .refl _
    | cons t outer =>
      rw [hn] at hc
      obtain ⟨t', outer', ht, -, hn'⟩ := List.forall₂_cons_left_iff.mp hc
      rw [hn']
      exact ht.grows
  | define env name =>
    unfold current
    cases hn : env.nested with
    | nil =>
      rw [define_nil hn]
      exact ⟨Nat.le_succ _, List.prefix_rfl⟩
    | cons t outer =>
      rw [define_cons hn]
      exact ⟨Nat.le_succ _, List.prefix_rfl⟩
  | trans _ _ ih ih' => exact ih.trans ih'

end Environment
end ClosureVM
