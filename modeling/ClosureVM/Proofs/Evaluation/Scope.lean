import ClosureVM.Proofs.Evaluation.Denotation

/-! The bindings in scope of an evaluation, and the places of a running call that hold them. -/
namespace ClosureVM

/-- What the function of a call has captured. -/
def Activation.free (a : Activation) : List Value :=
  match a.self with
  | .closure _ _ free => free
  | _ => []

/-- The value of a symbol in a call. -/
def Symbol.value? (globals : List Value) (a : Activation) (s : Symbol) : Option Value :=
  match s.storage with
  | .global | .builtin => s.sharedValue? globals
  | .frame => a.locals[s.index.toNat]?
  | .free => a.free[s.index.toNat]?
  | .self => some a.self

/-- A name stands for the value of a symbol. -/
def Means (pool : Array Value) (globals : List Value) (a : Activation) (scope : Bindings)
    (name : String) (s : Symbol) : Prop :=
  ∃ d v, scope.lookup name = some d ∧ s.value? globals a = some v ∧ Denotes pool globals d v

/-- Names stand for the values of their symbols, in a function whose table will be `final`. What
it has captured without having come to the name yet is in its place already. -/
structure Scoped (pool : Array Value) (globals : List Value) (env : Environment) (final : Table)
    (a : Activation) (scope : Bindings) : Prop where
  shared : ∀ x s, (∀ t ∈ env.nested, t.find? x = none) → env.global.find? x = some s →
    Means pool globals a scope x s
  own : ∀ s, KnownTo env.nested s → Means pool globals a scope s.name s
  later : ∀ t outer, env.nested = t :: outer → ∀ (i : Nat) u v, final.free[i]? = some u →
    a.free[i]? = some v → t.find? u.name = none →
    ∃ d, scope.lookup u.name = some d ∧ Denotes pool globals d v
  free : env.nested ≠ [] → a.free.length = final.free.length

private theorem getElem?_of_prefix {α : Type} {l l' : List α} (h : l <+: l') {i : Nat} {a : α}
    (ha : l[i]? = some a) : l'[i]? = some a := by
  obtain ⟨rest, rfl⟩ := h
  rw [List.getElem?_append_left (List.getElem?_eq_some_iff.mp ha).1, ha]

theorem lookup_cons_self (scope : Bindings) (x : String) (d : Datum) :
    List.lookup x ((x, d) :: scope) = some d := by
  simp

theorem lookup_cons_ne {x y : String} (h : x ≠ y) (scope : Bindings) (d : Datum) :
    List.lookup x ((y, d) :: scope) = scope.lookup x := by
  rw [List.lookup_cons, beq_eq_false_iff_ne.mpr h]

section

variable {pool : Array Value} {globals globals' : List Value} {env env' : Environment}
  {final : Table} {a a' : Activation} {scope : Bindings} {x : String} {s : Symbol}

private theorem Symbol.value?_mono {v : Value} (h : s.value? globals a = some v)
    (hg : globals <+: globals') : s.value? globals' a = some v := by
  unfold Symbol.value? at h ⊢
  split at h
  · exact sharedValue?_mono h hg
  · exact sharedValue?_mono h hg
  · exact h
  · exact h
  · exact h

theorem Symbol.value?_of_shared {v : Value} (h : s.sharedValue? globals = some v) :
    s.value? globals a = some v := by
  unfold Symbol.value?
  cases hs : s.storage with
  | global | builtin => exact h
  | _ =>
    rw [sharedValue?, hs] at h
    cases h

theorem Symbol.sharedValue?_of_isShared {v : Value} (hs : s.IsShared)
    (h : s.value? globals a = some v) : s.sharedValue? globals = some v := by
  have hshared := hs.storage
  unfold Symbol.value? at h
  cases hst : s.storage with
  | global | builtin =>
    rw [hst] at h
    exact h
  | _ =>
    rw [hst] at hshared
    cases hshared

theorem Means.mono (h : Means pool globals a scope x s) (hg : globals <+: globals') :
    Means pool globals' a scope x s := by
  obtain ⟨d, v, hd, hv, hden⟩ := h
  exact ⟨d, v, hd, Symbol.value?_mono hv hg, hden.mono hg⟩

theorem Means.cons (h : Means pool globals a scope x s) {y : String} (hne : x ≠ y) (d : Datum) :
    Means pool globals a ((y, d) :: scope) x s := by
  obtain ⟨e, v, he, hv, hden⟩ := h
  exact ⟨e, v, by rw [lookup_cons_ne hne, he], hv, hden⟩

theorem Means.of_eq (h : Means pool globals a scope x s) (hself : a'.self = a.self)
    (hlocals : s.storage = .frame → a'.locals[s.index.toNat]? = a.locals[s.index.toNat]?) :
    Means pool globals a' scope x s := by
  obtain ⟨d, v, hd, hv, hden⟩ := h
  refine ⟨d, v, hd, ?_, hden⟩
  have hfree : a'.free = a.free := by rw [Activation.free, hself, Activation.free]
  rw [← hv]
  unfold Symbol.value?
  cases hs : s.storage with
  | frame => exact hlocals hs
  | free => dsimp only; rw [hfree]
  | self => exact congrArg some hself
  | _ => rfl

namespace Scoped

/-- Captures are values that are in their places already. -/
theorem captures (h : Scoped pool globals env final a scope) (hc : env.Captures env')
    (hf : env'.current.Grows final) : Scoped pool globals env' final a scope := by
  obtain ⟨hglobal, hnested⟩ := hc
  have hkept {t t' : Table} (ht : t.Captures t') {x : String} (hx : t'.find? x = none) :
      t.find? x = none := by
    cases hx' : t.find? x with
    | none => rfl
    | some s =>
      rw [ht.kept _ s hx'] at hx
      cases hx
  refine ⟨fun x s hn hs => ?_, fun s hs => ?_, fun t' outer' hn i u v hu hv hx => ?_, fun hn => ?_⟩
  · refine h.shared x s (fun t ht => ?_) (hglobal ▸ hs)
    obtain ⟨t', ht', hc⟩ := exists_of_forall₂_left hnested ht
    exact hkept hc (hn t' ht')
  · obtain ⟨t', outer', hn', hs⟩ := hs
    have hcur : env'.current = t' := by rw [Environment.current, hn']; rfl
    rw [hn'] at hnested
    obtain ⟨t, outer, ht, -, hn⟩ := List.forall₂_cons_right_iff.mp hnested
    cases hx : t.find? s.name with
    | some s' =>
      have hs' := ht.kept _ s' hx
      rw [hs] at hs'
      cases hs'
      exact h.own s ⟨t, outer, hn, hx⟩
    | none =>
      obtain ⟨i, u, hsym, hu, hname⟩ := ht.new _ s hx hs
      have hu' : final.free[i]? = some u := getElem?_of_prefix (hcur ▸ hf.free) hu
      have hi : i < a.free.length := by
        rw [h.free (by rw [hn]; exact List.cons_ne_nil _ _)]
        exact (List.getElem?_eq_some_iff.mp hu').1
      have hv := List.getElem?_eq_getElem hi
      obtain ⟨d, hd, hden⟩ := h.later t outer hn i u _ hu' hv (hname ▸ hx)
      refine ⟨d, _, hname ▸ hd, ?_, hden⟩
      rw [hsym]
      exact hv
  · rw [hn] at hnested
    obtain ⟨t, outer, ht, -, hn⟩ := List.forall₂_cons_right_iff.mp hnested
    exact h.later t outer hn i u v hu hv (hkept ht hx)
  · refine h.free fun hn' => hn ?_
    rw [hn'] at hnested
    exact List.forall₂_nil_left_iff.mp hnested

/-- The value of a name can be loaded. -/
theorem resolve? (h : Scoped pool globals env final a scope) (ho : env.Orderly)
    (hr : env.resolve? x = some (s, env')) (hf : env'.current.Grows final) :
    Scoped pool globals env' final a scope ∧ Means pool globals a scope x s := by
  obtain ⟨-, hc, hname, hfound⟩ := ho.resolve? hr
  have h' := h.captures hc hf
  refine ⟨h', ?_⟩
  obtain ⟨hnone, hglobal⟩ | hknown := hfound
  · exact h.shared x s hnone hglobal
  · exact hname ▸ h'.own s hknown

theorem of_eq (h : Scoped pool globals env final a scope) (hself : a'.self = a.self)
    (hlocals : a'.locals = a.locals) : Scoped pool globals env final a' scope := by
  have hfree : a'.free = a.free := by rw [Activation.free, hself, Activation.free]
  have hl (s : Symbol) (_ : s.storage = .frame) :
      a'.locals[s.index.toNat]? = a.locals[s.index.toNat]? := by rw [hlocals]
  exact ⟨fun x s hn hs => (h.shared x s hn hs).of_eq hself (hl s),
    fun s hs => (h.own s hs).of_eq hself (hl s), hfree ▸ h.later, hfree ▸ h.free⟩

/-- A variable of a function whose value is in its place. -/
theorem define (h : Scoped pool globals env final a scope) {t : Table} {outer : List Table}
    (hn : env.nested = t :: outer) (name : String) {d : Datum} {v : Value}
    (hv : a.locals[t.numDefinitions]? = some v) (hd : Denotes pool globals d v) :
    Scoped pool globals (env.define name).2 final a ((name, d) :: scope) := by
  have hfind (x : String) : (t.define .frame name).2.find? x =
      if x = name then some ⟨name, .frame, t.numDefinitions⟩ else t.find? x :=
    t.find?_insert _ x
  rw [Environment.define_cons hn]
  refine ⟨fun x s hnone hs => ?_, fun s hs => ?_, fun t' outer' ht' i u v hu hv hx => ?_,
    fun _ => h.free (by rw [hn]; exact List.cons_ne_nil _ _)⟩
  · obtain ⟨hx, hnone⟩ := List.forall_mem_cons.mp hnone
    rw [hfind] at hx
    split at hx
    · cases hx
    · rename_i hne
      exact (h.shared x s (hn ▸ List.forall_mem_cons.mpr ⟨hx, hnone⟩) hs).cons hne d
  · obtain ⟨t', outer', ⟨⟩, hs⟩ := hs
    rw [hfind] at hs
    split at hs
    · cases hs
      exact ⟨d, v, lookup_cons_self .., hv, hd⟩
    · rename_i hne
      exact (h.own s ⟨t, outer, hn, hs⟩).cons hne d
  · obtain ⟨⟩ := ht'
    rw [hfind] at hx
    split at hx
    · cases hx
    · rename_i hne
      obtain ⟨e, he, hden⟩ := h.later t outer hn i u v hu hv hx
      exact ⟨e, by rw [lookup_cons_ne hne, he], hden⟩

/-- A variable of the program, with the next of the globals. -/
theorem defineGlobal (h : Scoped pool globals env final a scope) (hn : env.nested = [])
    (name : String) {d : Datum} {v : Value} (hlen : env.global.numDefinitions = globals.length)
    (hd : Denotes pool globals d v) :
    Scoped pool (globals ++ [v]) (env.define name).2 final a ((name, d) :: scope) := by
  have hg : globals <+: globals ++ [v] := List.prefix_append ..
  have hfind (x : String) : (env.global.define .global name).2.find? x =
      if x = name then some ⟨name, .global, env.global.numDefinitions⟩
      else env.global.find? x :=
    env.global.find?_insert _ x
  rw [Environment.define_nil hn]
  refine ⟨fun x s _ hs => ?_, fun s hs => ?_, fun t outer ht => ?_, fun h => absurd rfl h⟩
  · rw [hfind] at hs
    split at hs
    · rename_i hx
      cases hs
      refine ⟨d, v, by rw [hx, lookup_cons_self], ?_, hd.mono hg⟩
      simp [Symbol.value?, Symbol.sharedValue?, hlen]
    · rename_i hne
      exact ((h.shared x s (by rw [hn]; exact List.forall_mem_nil _) hs).mono hg).cons hne d
  · obtain ⟨t, outer, ht, -⟩ := hs
    cases ht
  · cases ht

/-- Places of variables to come do not matter. -/
theorem setLocal (h : Scoped pool globals env final a scope) (hc : env.Closed) {t : Table}
    {outer : List Table} (hn : env.nested = t :: outer) {i : Nat} (hi : t.numDefinitions ≤ i)
    (v : Value) :
    Scoped pool globals env final { a with locals := a.locals.set i v } scope := by
  refine ⟨fun x s hnone hs => (h.shared x s hnone hs).of_eq rfl fun hframe => ?_,
    fun s hs => (h.own s hs).of_eq rfl fun hframe => ?_, h.later, h.free⟩
  · have hshared := (hc.global s (Environment.find?_mem hs)).storage
    rw [hframe] at hshared
    cases hshared
  · obtain ⟨t', outer', ht, hs⟩ := hs
    rw [hn] at ht
    cases ht
    have ht := hc.nested
    rw [hn] at ht
    have hheld := ht.1 s (Environment.find?_mem hs)
    unfold Table.Holds at hheld
    rw [hframe] at hheld
    obtain ⟨j, hj, hlt⟩ := hheld
    rw [hj, Int.toNat_natCast]
    exact List.getElem?_set_ne (by omega)

theorem defineAll (h : Scoped pool globals env final a scope) {t : Table} {outer : List Table}
    (hn : env.nested = t :: outer) {names : List String} {ds : List Datum} {vs : List Value}
    (hlen : names.length = ds.length) (hd : List.Forall₂ (Denotes pool globals) ds vs)
    (hv : ∀ (i : Nat) v, vs[i]? = some v → a.locals[t.numDefinitions + i]? = some v) :
    Scoped pool globals (names.foldl (fun env name => (env.define name).2) env) final a
      ((names.zip ds).reverse ++ scope) := by
  induction names generalizing env t ds vs scope with
  | nil => exact h
  | cons name names ih =>
    cases hd with
    | nil => cases hlen
    | @cons d v ds vs hden hd =>
      have h' := h.define hn name (hv 0 v rfl) hden
      have hn' : (env.define name).2.nested = (t.define .frame name).2 :: outer := by
        rw [Environment.define_cons hn]
      rw [List.foldl_cons, List.zip_cons_cons, List.reverse_cons, List.append_assoc]
      refine ih h' hn' (Nat.succ.inj hlen) hd fun i v hi => ?_
      have := hv (i + 1) v hi
      rwa [show (t.define .frame name).2.numDefinitions = t.numDefinitions + 1 from rfl,
        Nat.add_assoc, Nat.add_comm 1 i]

/-- A function literal stands for a closure that holds what it captures. -/
theorem closure {d d' : Draft} (h : Scoped pool globals d.env final a scope) {params : List Node}
    {body : Node} {name : Option String} {proto : Prototype} {vs : List Value}
    (hc : Compiled pool params body name d d' proto)
    (hvs : List.Forall₂ (fun s v => ∃ e, scope.lookup s.name = some e ∧ Denotes pool globals e v)
      d'.env.current.free vs) (id : Nat) :
    Denotes pool globals (.closure id params body name scope) (.closure id proto vs) := by
  have hshared (x : String) (s : Symbol) (hn : ∀ t ∈ d.env.nested, t.find? x = none)
      (hx : d.env.global.find? x = some s) : ∃ e v, scope.lookup x = some e ∧
        s.sharedValue? globals = some v ∧ Denotes pool globals e v := by
    obtain ⟨e, v, he, hv, hd⟩ := h.shared x s hn hx
    have hs := hc.orderly.closed.global s (Environment.find?_mem hx)
    exact ⟨e, v, he, Symbol.sharedValue?_of_isShared hs hv, hd⟩
  refine .closure hc hvs.length_eq.symm (fun s hs => ?_) (fun i s e v hs he hv => ?_)
    (fun x s hn hx => ?_) fun x s e v hn hx he hv => ?_
  · obtain ⟨v, -, e, he, -⟩ := exists_of_forall₂_left hvs hs
    rw [he]
    rfl
  · obtain ⟨hi, rfl⟩ := List.getElem?_eq_some_iff.mp hs
    obtain ⟨hi', rfl⟩ := List.getElem?_eq_some_iff.mp hv
    obtain ⟨e', he', hd⟩ := (List.forall₂_iff_get.mp hvs).2 i hi hi'
    cases he.symm.trans he'
    exact hd
  · obtain ⟨e, v, he, hv, -⟩ := hshared x s hn hx
    rw [he, hv]
    exact ⟨rfl, rfl⟩
  · obtain ⟨e', v', he', hv', hd⟩ := hshared x s hn hx
    cases he.symm.trans he'
    cases hv.symm.trans hv'
    exact hd

end Scoped

/-- Inside a function that is called with the given arguments. -/
theorem Denotes.enter {id : Nat} {params : List Node} {body : Node} {name : Option String}
    {v : Value} (h : Denotes pool globals (.closure id params body name scope) v) :
    ∃ d d' proto free, v = .closure id proto free ∧ Compiled pool params body name d d' proto ∧
      ∀ names ds vs a, names.length = ds.length → List.Forall₂ (Denotes pool globals) ds vs →
        a.self = v → (∀ (i : Nat) v, vs[i]? = some v → a.locals[i]? = some v) →
        Scoped pool globals (d.enter name names).env d'.env.current a
          (Datum.inner (.closure id params body name scope) name names ds scope) := by
  have hself := h
  cases h with
  | @closure _ _ _ _ _ d d' proto free hcomp hlen hsome hfree hshared hglobal =>
  refine ⟨d, d', proto, free, rfl, hcomp, fun names ds vs a hnames hd ha hlocals => ?_⟩
  have hafree : a.free = free := by rw [Activation.free, ha]
  have hmeans (x : String) (s : Symbol) (hn : ∀ t ∈ d.env.nested, t.find? x = none)
      (hs : d.env.global.find? x = some s) : Means pool globals a scope x s := by
    obtain ⟨hscope, hvalue⟩ := hshared x s hn hs
    obtain ⟨e, he⟩ := Option.isSome_iff_exists.mp hscope
    obtain ⟨u, hu⟩ := Option.isSome_iff_exists.mp hvalue
    exact ⟨e, u, he, Symbol.value?_of_shared hu, hglobal x s e u hn hs he hu⟩
  have hlater (i : Nat) (u : Symbol) (v : Value) (hu : d'.env.current.free[i]? = some u)
      (hv : a.free[i]? = some v) :
      ∃ e, scope.lookup u.name = some e ∧ Denotes pool globals e v := by
    obtain ⟨e, he⟩ := Option.isSome_iff_exists.mp (hsome u (List.mem_of_getElem? hu))
    exact ⟨e, he, hfree i u e v hu he (hafree ▸ hv)⟩
  have hlength : a.free.length = d'.env.current.free.length := by rw [hafree, hlen]
  unfold Draft.enter Datum.inner
  rw [List.append_assoc]
  cases given? name with
  | none =>
    have h₀ : Scoped pool globals d.env.enter d'.env.current a scope := by
      refine ⟨fun x s hn hs => ?_, fun s hs => ?_, fun t outer ht i u v hu hv hx => ?_,
        fun _ => hlength⟩
      · exact hmeans x s (List.forall_mem_cons.mp hn).2 hs
      · obtain ⟨t, outer, ⟨⟩, ⟨⟩⟩ := hs
      · exact hlater i u v hu hv
    exact h₀.defineAll rfl hnames hd (by simpa using hlocals)
  | some own =>
    let self := Datum.closure id params body name scope
    have hfind (x : String) : (Table.defineFunctionName {} own).2.find? x =
        if x = own then some ⟨own, .self, 0⟩ else none := Table.find?_insert {} _ x
    have h₀ : Scoped pool globals (d.env.enter.defineFunctionName own) d'.env.current a
        ((own, self) :: scope) := by
      refine ⟨fun x s hn hs => ?_, fun s hs => ?_, fun t outer ht i u v hu hv hx => ?_,
        fun _ => hlength⟩
      · obtain ⟨hx, hn⟩ := List.forall_mem_cons.mp hn
        rw [hfind] at hx
        split at hx
        · cases hx
        · rename_i hne
          exact (hmeans x s hn hs).cons hne self
      · obtain ⟨t, outer, ⟨⟩, hs⟩ := hs
        rw [hfind] at hs
        split at hs
        · cases hs
          exact ⟨self, a.self, lookup_cons_self .., rfl, ha ▸ hself⟩
        · cases hs
      · obtain ⟨⟩ := ht
        rw [hfind] at hx
        split at hx
        · cases hx
        · rename_i hne
          obtain ⟨e, he, hden⟩ := hlater i u v hu hv
          exact ⟨e, by rw [lookup_cons_ne hne, he], hden⟩
    have hnum : (Table.defineFunctionName {} own).2.numDefinitions = 0 := rfl
    refine h₀.defineAll rfl hnames hd fun i v hi => ?_
    rw [hnum, Nat.zero_add]
    exact hlocals i v hi

end

end ClosureVM
