import ClosureVM.Proofs.Evaluation.Simulation
import ClosureVM.Proofs.Machine.Instructions

/-! Single instructions, and what they do to a configuration that agrees with an evaluation. -/
namespace ClosureVM

/-- One more value on the stack, which a datum stands for. -/
def Pushes (pool : Array Value) (temps gs : List Value) (d : Datum) (temps' : List Value) : Prop :=
  ∃ v, temps' = v :: temps ∧ Denotes pool gs d v

/-- The stack as it was, and no value. -/
def Unchanged (temps _gs : List Value) (d : Datum) (temps' : List Value) : Prop :=
  temps' = temps ∧ d = .null

/-- `k` more values, which data stand for, the last on top. -/
def PushesAll (pool : Array Value) (k : Nat) (temps gs : List Value) (ds : List Datum)
    (temps' : List Value) : Prop :=
  ∃ vs, vs.length = k ∧ temps' = vs.reverse ++ temps ∧ List.Forall₂ (Denotes pool gs) ds vs

private theorem EvalM.skip_append (xs ys : List String) :
    EvalM.skip (xs ++ ys) = EvalM.skip xs >>= fun _ => EvalM.skip ys := List.forM_append

section

variable {α : Type} {pool : Array Value} {n : Nat} {final : Table} {env env' : Environment}
  {rest : List Piece} {gs gs' : List Value} {temps : List Value}
  {c c₁ : Config} {p : Progress} {d : Datum} {v : Value}

namespace Agrees

theorem withCode (h : Agrees pool n final env gs c p) (code : List Piece) :
    Agrees pool n final env gs (c.withCode code) p :=
  { h with scope := h.scope.of_eq rfl rfl }

theorem withTemps (h : Agrees pool n final env gs c p) (temps : List Value) :
    Agrees pool n final env gs (c.withTemps temps) p :=
  { h with scope := h.scope.of_eq rfl rfl }

theorem allocate (h : Agrees pool n final env gs c p) :
    Agrees pool n final env gs { c with fresh := c.fresh + 1 } { p with fresh := p.fresh + 1 } :=
  { h with fresh := congrArg (· + 1) h.fresh }

theorem write (h : Agrees pool n final env gs c p) (lines : List String) :
    Agrees pool n final env gs { c with written := c.written ++ lines }
      { p with written := p.written ++ lines } :=
  { h with written := congrArg (· ++ lines) h.written }

/-- Captures change nothing for the configuration. -/
theorem captures (h : Agrees pool n final env gs c p) (hc : env.Captures env')
    (hf : env'.current.Grows final) : Agrees pool n final env' gs c p := by
  have hnil : env'.nested = [] ↔ env.nested = [] := by
    rw [← List.length_eq_zero_iff, ← hc.nested.length_eq, List.length_eq_zero_iff]
  refine { h with
    level := h.level.trans hnil.symm
    grows := hf
    capacity := fun hn => h.capacity (hnil.mp hn)
    scope := h.scope.captures hc hf
    self := fun hn => h.self (mt hnil.mpr hn)
    room := fun t' outer' hn' => ?_
    count := fun hn => by rw [hc.global, h.count (hnil.mp hn)]
    base := fun hn => h.base (hnil.mp hn)
    bound := fun hn => h.bound (hnil.mp hn) }
  have hnested := hc.nested
  rw [hn'] at hnested
  obtain ⟨t, outer, ht, -, hn⟩ := List.forall₂_cons_right_iff.mp hnested
  rw [ht.numDefinitions]
  exact h.room t outer hn

/-- A further variable of a function, given the places of its variables afterwards. -/
theorem define (h : Agrees pool n final env gs c p) {t : Table} {outer : List Table}
    (hn : env.nested = t :: outer) (name : String) {a : Activation}
    (hg : (env.define name).2.current.Grows final)
    (hscope : Scoped pool gs (env.define name).2 final a ((name, d) :: p.scope))
    (hself : a.self = c.current.self) (hlen : a.locals.length = c.current.locals.length)
    (hnull : ∀ i v, t.numDefinitions < i → a.locals[i]? = some v → v = .null) :
    Agrees pool n final (env.define name).2 gs { c with current := a }
      { p with scope := (name, d) :: p.scope } := by
  have hroom := h.room t outer hn
  have hlevel := h.level
  rw [hn] at hlevel
  rw [Environment.define_cons hn] at hg hscope ⊢
  refine { h with
    level := hlevel.trans (by simp)
    grows := hg
    capacity := nofun
    scope := hscope
    self := fun _ => hself ▸ h.self (by rw [hn]; exact List.cons_ne_nil _ _)
    room := fun t' outer' hn' => ?_
    count := nofun
    base := nofun
    bound := nofun }
  cases hn'
  exact ⟨hlen.trans hroom.1, hnull⟩

/-- A further global, which may already be in its place. -/
theorem defineGlobal (h : Agrees pool n final env gs c p) (hn : env.nested = []) (name : String)
    (hf : (env.define name).2.current.Grows final) (hd : Denotes pool gs d v) {slots : Slots}
    (hs : slots.Starts (gs ++ [v])) :
    Agrees pool n final (env.define name).2 (gs ++ [v]) { c with globals := slots }
      { p with scope := (name, d) :: p.scope } := by
  have hg : gs <+: gs ++ [v] := List.prefix_append ..
  have hscope := h.scope.defineGlobal hn name (h.count hn) hd
  have hbase := h.base hn
  have hbound : List.Forall₂ (Denotes pool (gs ++ [v]))
      (Progress.globals { p with scope := (name, d) :: p.scope }) (gs ++ [v]) := by
    rw [Progress.globals, List.reverse_cons, List.drop_append_of_le_length (by simpa using hbase),
      List.map_append]
    exact List.rel_append ((h.bound hn).imp fun _ _ hd => hd.mono hg) (.cons (hd.mono hg) .nil)
  rw [Environment.define_nil hn] at hf hscope ⊢
  exact { h with
    level := iff_of_true (h.level.mpr hn) rfl
    grows := hf
    capacity := fun _ => h.capacity hn
    slots := hs
    scope := hscope.of_eq rfl rfl
    self := fun h => absurd rfl h
    room := nofun
    count := fun _ => by simp [Table.define, Table.insert, h.count hn]
    base := fun _ => Nat.le_succ_of_le hbase
    bound := fun _ => hbound
    result := fun hc => (h.result hc).mono hg }

/-- Bindings that are passed over. Their places hold `null` already. -/
theorem skip {names : List String} (he : env.Evolves names env')
    (h : Agrees pool n final env gs c p) (hf : env'.current.Grows final) :
    ∃ gs' p', EvalM.skip names p = .ok ⟨⟩ p' ∧ gs <+: gs' ∧ (c.callers ≠ [] → gs' = gs) ∧
      Agrees pool n final env' gs' c p' := by
  induction he generalizing gs p with
  | captures hc => exact ⟨gs, p, rfl, List.prefix_rfl, fun _ => rfl, h.captures hc hf⟩
  | define env name =>
    cases hn : env.nested with
    | nil =>
      refine ⟨gs ++ [.null], _, rfl, List.prefix_append .., fun hc => ?_,
        h.defineGlobal hn name hf .null ⟨h.slots.size, fun i v hv => ?_⟩⟩
      · exact absurd (h.level.mpr hn) hc
      · rw [h.slots.get? i v hv, List.getElem?_append]
        split
        · rfl
        · rename_i hi
          rw [List.getElem?_eq_none (Nat.le_of_not_lt hi)]
          cases i - gs.length <;> rfl
    | cons t outer =>
      obtain ⟨hlen, hnull⟩ := h.room t outer hn
      have hlt : t.numDefinitions < c.current.locals.length := by
        have := hf.numDefinitions
        rw [Environment.current, Environment.define_cons hn] at this
        rw [hlen]
        exact this
      have hv := List.getElem?_eq_getElem hlt
      rw [hnull _ _ (Nat.le_refl _) hv] at hv
      exact ⟨gs, _, rfl, List.prefix_rfl, fun _ => rfl, h.define hn name hf
        (h.scope.define hn name hv .null) rfl rfl fun i v hi => hnull i v (Nat.le_of_lt hi)⟩
  | trans he he' ih ih' =>
    obtain ⟨gs₁, p₁, hs₁, hg₁, hk₁, h₁⟩ := ih h (he'.grows.trans hf)
    obtain ⟨gs₂, p₂, hs₂, hg₂, hk₂, h₂⟩ := ih' h₁ hf
    refine ⟨gs₂, p₂, ?_, hg₁.trans hg₂, fun hc => (hk₂ hc).trans (hk₁ hc), h₂⟩
    rw [EvalM.skip_append, EStateM.bind_ok hs₁, hs₂]

/-- The value of a symbol is loaded. -/
theorem step_load (h : Agrees pool n final env gs c p) {s : Symbol}
    (hcode : c.current.code = s.load :: rest) {position : Nat} (hf : Piece.Fits position [s.load])
    (hself : s.storage = .self → env.nested ≠ []) (hv : s.value? gs c.current = some v) :
    c.step = (c.withCode rest).push v := by
  cases hs : s.storage with
  | global =>
    simp only [Symbol.load, Symbol.value?, Symbol.sharedValue?, hs] at hcode hf hv
    have hlt : s.index.toNat < c.globals.size := by
      rw [h.slots.size]
      cases hf.1.2 with
      | cons hlt _ => exact hlt
    obtain ⟨w, hw⟩ : ∃ w, c.globals.get? s.index.toNat = some w := ⟨_, if_pos hlt⟩
    have hval := h.slots.get? _ _ hw
    rw [hv] at hval
    rw [Config.step_op hcode]
    change (c.withCode rest).pushFound (c.globals.get? s.index.toNat) = _
    rw [hw, hval]
    rfl
  | frame =>
    simp only [Symbol.load, Symbol.value?, hs] at hcode hv
    rw [Config.step_op hcode]
    change (c.withCode rest).pushFound c.current.locals[s.index.toNat]? = _
    rw [hv]
    rfl
  | builtin =>
    simp only [Symbol.load, Symbol.value?, Symbol.sharedValue?, hs] at hcode hv
    rw [Config.step_op hcode]
    change (c.withCode rest).pushFound (Builtin.all[s.index.toNat]?.map .builtin) = _
    rw [hv]
    rfl
  | free =>
    simp only [Symbol.load, Symbol.value?, Activation.free, hs] at hcode hv
    split at hv
    · rename_i id proto free hc
      rw [Config.step_getFree hcode hc, hv]
      rfl
    · cases hv
  | self =>
    simp only [Symbol.load, Symbol.value?, hs] at hcode hv
    obtain ⟨id, proto, free, hc⟩ := h.self (hself hs)
    cases hv
    exact Config.step_currentClosure hcode hc

end Agrees

namespace Simulates

/-- An instruction pushes a value. -/
theorem push (h : Agrees pool n final env gs c₁ p) (hs : c.step = c₁.push v)
    (hc : c₁.callers = c.callers) (hl : c₁.lastPopped = c.lastPopped)
    (hcode : c₁.current.code = rest) (ht : c₁.current.temps = temps)
    (hd : Denotes pool gs d v) :
    Simulates pool n final env rest (Pushes pool temps) gs c
      ((Pure.pure d : EvalM Datum) p) := by
  rw [Config.push] at hs
  split at hs
  · exact .inl ⟨_, c₁, .stop hs, .inl rfl⟩
  · exact .inr ⟨gs, _, List.prefix_rfl, .single hs, hc, fun _ => ⟨rfl, hl⟩, hcode,
      ⟨v, ht ▸ rfl, hd⟩, h.withTemps _⟩

/-- An instruction stops the run. -/
theorem stop {s : Stop} {post : List Value → α → List Value → Prop}
    (h : Agrees pool n final env gs c₁ p) (hs : c.step = .stop s c₁)
    (hc : c₁.callers = c.callers) :
    Simulates pool n final env' rest post gs c ((EvalM.stop s : EvalM α) p) :=
  .inr ⟨gs, c₁, .stop hs, List.prefix_rfl, fun _ => rfl, h.slots, h.written,
    fun hnil => have hn := h.level.mp (hc.trans hnil); ⟨h.length_le hn, h.bound hn⟩⟩

/-- An instruction pushes the result of an operation, or stops the run. -/
theorem pushResult {r : Except Stop Value} {r' : Except Stop Datum}
    (h : Agrees pool n final env gs c₁ p) (hs : c.step = c₁.pushResult r)
    (hc : c₁.callers = c.callers) (hl : c₁.lastPopped = c.lastPopped)
    (hcode : c₁.current.code = rest) (ht : c₁.current.temps = temps)
    (hr : SameResult (Denotes pool gs) r' r) :
    Simulates pool n final env rest (Pushes pool temps) gs c (EvalM.lift r' p) := by
  obtain ⟨s, rfl, rfl⟩ | ⟨d, v, rfl, rfl, hd⟩ := hr.cases
  · exact stop h hs hc
  · exact push h hs hc hl hcode ht hd

/-- An instruction pushes a value with a new identity. -/
theorem pushNew {make : Nat → Value} {make' : Nat → Datum}
    (h : Agrees pool n final env gs c₁ p) (hs : c.step = c₁.pushNew make)
    (hc : c₁.callers = c.callers) (hl : c₁.lastPopped = c.lastPopped)
    (hcode : c₁.current.code = rest) (ht : c₁.current.temps = temps)
    (hd : ∀ id, Denotes pool gs (make' id) (make id)) :
    Simulates pool n final env rest (Pushes pool temps) gs c
      ((EvalM.identity >>= fun id => Pure.pure (make' id)) p) := by
  have hpush := push h.allocate hs hc hl hcode ht (hd c₁.fresh)
  rw [h.fresh] at hpush
  exact hpush

/-- The value on top goes into a new binding. -/
theorem store {name : String} (h : Agrees pool n final env gs c p)
    (hclosed : env.Closed) (hg : (env.define name).2.current.Grows final) {position : Nat}
    (hf : Piece.Fits position [(env.define name).1.store])
    (hcode : c.current.code = (env.define name).1.store :: rest)
    (ht : c.current.temps = v :: temps) (hd : Denotes pool gs d v) :
    Simulates pool n final (env.define name).2 rest (fun _ _ temps' => temps' = temps) gs c
      (EvalM.bindName name d p) := by
  cases hn : env.nested with
  | nil =>
    have hnil := h.level.mpr hn
    have hlen := h.count hn
    rw [Environment.define_nil hn] at hcode hf
    have hlt : env.global.numDefinitions < c.globals.size := by
      rw [h.slots.size]
      cases hf.1.2 with
      | cons hlt _ => exact hlt
    have hcode : c.current.code = .op .setGlobal [env.global.numDefinitions] :: rest := hcode
    have hs := Config.step_setGlobal hcode ht hlt
    refine .inr ⟨gs ++ [v], _, List.prefix_append .., .single hs, rfl, fun hc => absurd hnil hc,
      rfl, rfl, ((h.withCode rest).defineGlobal hn name hg hd ⟨?_, fun i w hw => ?_⟩).withTemps temps⟩
    · rw [Slots.size_set, h.slots.size]
    · rw [Slots.get?_set] at hw
      split at hw
      · rename_i hi
        cases hw
        rw [hi.1, hlen]
        simp
      · rename_i hi
        rw [h.slots.get? i w hw, List.getElem?_append]
        split
        · rfl
        · rename_i hge
          have hne : i ≠ gs.length := fun he => hi ⟨he.trans hlen.symm, hlt⟩
          rw [List.getElem?_eq_none (by omega), List.getElem?_eq_none (by simp; omega)]
  | cons t outer =>
    obtain ⟨hlen, hnull⟩ := h.room t outer hn
    have hlt : t.numDefinitions < c.current.locals.length := by
      have hg := hg.numDefinitions
      rw [Environment.current, Environment.define_cons hn] at hg
      exact hlen ▸ hg
    rw [Environment.define_cons hn] at hcode
    have hcode : c.current.code = .op .setLocal [t.numDefinitions] :: rest := hcode
    have hs := Config.step_setLocal hcode ht hlt
    have hscope := (h.scope.setLocal hclosed hn (Nat.le_refl _) v).define hn name
      (List.getElem?_set_self hlt) hd
    refine .inr ⟨gs, _, List.prefix_rfl, .single hs, rfl, fun _ => ⟨rfl, rfl⟩, rfl, rfl,
      h.define hn name hg (hscope.of_eq rfl rfl) rfl List.length_set fun i w hi hw => ?_⟩
    rw [List.getElem?_set_ne (by omega)] at hw
    exact hnull i w (by omega) hw

/-- The value on top is dropped. -/
theorem drop (h : Agrees pool n final env gs c p)
    (hcode : c.current.code = .op .pop :: rest) (ht : c.current.temps = v :: temps)
    (hd : Denotes pool gs d v) :
    Simulates pool n final env rest (Unchanged temps) gs c (EvalM.drop d p) := by
  have hs := Config.step_pop hcode ht
  have hpop : Agrees pool n final env gs
      { c with lastPopped := if c.callers.isEmpty then v else c.lastPopped }
      { p with result := d } := by
    refine { h with result := fun hc => ?_ }
    have hc : c.callers.isEmpty = true := List.isEmpty_iff.mpr hc
    change Denotes pool gs d (if c.callers.isEmpty then v else c.lastPopped)
    rwa [if_pos hc]
  refine .inr ⟨gs, _, List.prefix_rfl, .single hs, rfl, fun hc => ⟨rfl, ?_⟩, rfl, ⟨rfl, rfl⟩,
    (hpop.withCode rest).withTemps temps⟩
  exact if_neg (by simpa using hc)

end Simulates

end

end ClosureVM
