import ClosureVM.Proofs.Machine.Runs
import ClosureVM.Proofs.Machine.Typing

/-! What values a configuration can hold: closures are only made by the instruction that makes
them, and globals are only changed by the one that sets them. -/
namespace ClosureVM

/-- A value in which all functions have the property `Q`, those that closures are made of
included. -/
inductive Value.Made (Q : Prototype → Prop) : Value → Prop
  | null : Made Q .null
  | bool (b : Bool) : Made Q (.bool b)
  | int (n : Int) : Made Q (.int n)
  | str (s : String) : Made Q (.str s)
  | array {id : Nat} {elements : List Value} :
    (∀ v ∈ elements, Made Q v) → Made Q (.array id elements)
  | hash {id : Nat} {entries : Entries} :
    (∀ e ∈ entries, Made Q e.2) → Made Q (.hash id entries)
  | function {proto : Prototype} : Q proto → Made Q (.function proto)
  | closure {id : Nat} {proto : Prototype} {free : List Value} :
    Q proto → (∀ v ∈ free, Made Q v) → Made Q (.closure id proto free)
  | builtin (b : Builtin) : Made Q (.builtin b)

section Operations

variable {Q Q' : Prototype → Prop} {v a b : Value}

theorem Value.Made.mono (h : v.Made Q) (hQ : ∀ proto, Q proto → Q' proto) : v.Made Q' := by
  induction h with
  | null => exact .null
  | bool b => exact .bool b
  | int n => exact .int n
  | str s => exact .str s
  | array _ ih => exact .array ih
  | hash _ ih => exact .hash ih
  | function hq => exact .function (hQ _ hq)
  | closure hq _ ih => exact .closure (hQ _ hq) ih
  | builtin b => exact .builtin b

theorem Value.made_true (v : Value) : v.Made fun _ => True := by
  induction hn : sizeOf v using Nat.strongRecOn generalizing v with
  | ind n ih =>
    subst hn
    cases v with
    | null => exact .null
    | bool b => exact .bool b
    | int n => exact .int n
    | str s => exact .str s
    | function proto => exact .function trivial
    | builtin b => exact .builtin b
    | array id elements =>
      refine .array fun v hv => ih _ ?_ v rfl
      have := List.sizeOf_lt_of_mem hv
      simp only [array.sizeOf_spec]
      omega
    | hash id entries =>
      refine .hash fun e he => ih _ ?_ e.2 rfl
      have := List.sizeOf_lt_of_mem he
      rcases e with ⟨k, v⟩
      simp only [hash.sizeOf_spec, Prod.mk.sizeOf_spec] at *
      omega
    | closure id proto free =>
      refine .closure trivial fun v hv => ih _ ?_ v rfl
      have := List.sizeOf_lt_of_mem hv
      simp only [closure.sizeOf_spec]
      omega

theorem Value.IsLiteral.made (h : v.IsLiteral) : v.Made Q := by
  cases v with
  | int n => exact .int n
  | str s => exact .str s
  | _ => exact absurd h id

theorem Value.Made.getD {o : Option Value} (h : ∀ v ∈ o, v.Made Q) : (o.getD .null).Made Q := by
  cases o with
  | none => exact .null
  | some v => exact h v rfl

theorem Value.made_negate {r : Value} (h : v.negate = .ok r) : r.Made Q := by
  unfold negate at h
  split at h
  · rename_i n
    cases hc : checkWord (-n) with
    | ok m =>
      rw [hc] at h
      cases h
      exact .int m
    | error s =>
      rw [hc] at h
      cases h
  · cases h

theorem Value.made_arithmetic {op : Opcode} {r : Value} (h : Value.arithmetic op a b = .ok r) :
    r.Made Q := by
  unfold arithmetic at h
  split at h
  · rename_i m n
    cases hc : integerOperation op m n with
    | ok k =>
      rw [hc] at h
      cases h
      exact .int k
    | error s =>
      rw [hc] at h
      cases h
  · split at h
    · cases h
      exact .str _
    · cases h
  · cases h

private theorem Value.made_compare {op : Opcode} {r : Value}
    (h : ((a.compare op b).map .bool).mapError .fault = (.ok r : Except Stop Value)) :
    r.Made Q := by
  cases hc : a.compare op b with
  | ok t =>
    rw [hc] at h
    cases h
    exact .bool t
  | error f =>
    rw [hc] at h
    cases h

theorem Value.Made.index (ha : a.Made Q) {i r : Value}
    (h : (a.index i).mapError .fault = (.ok r : Except Stop Value)) : r.Made Q := by
  cases ha with
  | @array id elements hv =>
    cases i with
    | int n =>
      unfold Value.index at h
      dsimp only at h
      split at h
      · cases h
        exact .getD fun v hm => hv v (List.mem_of_getElem? hm)
      · cases h
        exact .null
    | _ =>
      cases h
      exact .null
  | @hash id entries hv =>
    cases h
    refine .getD fun v hm => ?_
    obtain ⟨k, -, hk⟩ := Option.bind_eq_some_iff.mp hm
    exact hv _ (Entries.mem_of_get? hk)
  | _ => cases h

theorem Builtin.apply_made (b : Builtin) {fresh : Nat} {args : List Value} {reply : Reply}
    (ha : ∀ v ∈ args, v.Made Q) (h : b.apply fresh args = .ok reply) : reply.value.Made Q := by
  have helements {id : Nat} {elements : List Value} (hv : .array id elements ∈ args) :
      ∀ v ∈ elements, v.Made Q := by
    cases ha _ hv with
    | array h => exact h
  unfold Builtin.apply at h
  split at h <;> cases h
  · exact .int _
  · exact .int _
  · exact .null
  · exact .getD fun v hv => helements List.mem_cons_self v (List.mem_of_mem_head? hv)
  · exact .getD fun v hv => helements List.mem_cons_self v (List.mem_of_getLast? hv)
  · exact .null
  · exact .array fun v hv => helements List.mem_cons_self v (List.mem_cons_of_mem _ hv)
  · refine .array fun v hv => ?_
    obtain hv | hv := List.mem_append.mp hv
    · exact helements List.mem_cons_self v hv
    · exact ha v (by simp [List.mem_singleton.mp hv])

private theorem Entries.ofValues_made {entries result : Entries} {values : List Value}
    (he : ∀ e ∈ entries, e.2.Made Q) (hv : ∀ v ∈ values, v.Made Q)
    (h : Entries.ofValues entries values = .ok result) : ∀ e ∈ result, e.2.Made Q := by
  fun_induction Entries.ofValues entries values with
  | case1 entries k v rest key hkey ih =>
    obtain ⟨-, hv, hrest⟩ : _ ∧ v.Made Q ∧ ∀ u ∈ rest, u.Made Q := by
      simpa only [List.mem_cons, forall_eq_or_imp] using hv
    refine ih (fun e hmem => ?_) hrest h
    obtain rfl | hmem := Entries.mem_insert hmem
    · exact hv
    · exact he e hmem
  | case2 => cases h
  | case3 entries values hne =>
    cases h
    exact he

end Operations

/-- All values of a call are made so. -/
structure Activation.Made (Q : Prototype → Prop) (a : Activation) : Prop where
  self : a.self.Made Q
  locals : ∀ v ∈ a.locals, v.Made Q
  temps : ∀ v ∈ a.temps, v.Made Q

def Slots.Made (Q : Prototype → Prop) (s : Slots) : Prop := ∀ i v, s.get? i = some v → v.Made Q

/-- All values of a configuration are made so. -/
structure Config.Made (Q : Prototype → Prop) (c : Config) : Prop where
  globals : c.globals.Made Q
  lastPopped : c.lastPopped.Made Q
  current : c.current.Made Q
  callers : ∀ a ∈ c.callers, a.Made Q

/-- All values are made so, and globals are the given ones. -/
def Effect.Made (Q : Prototype → Prop) (globals : Slots) : Effect → Prop
  | .next c | .stop _ c => c.Made Q ∧ c.globals = globals
  | .stuck => True

namespace Config

variable {Q Q' : Prototype → Prop} {c : Config}

theorem Made.mono (h : c.Made Q) (hQ : ∀ proto, Q proto → Q' proto) : c.Made Q' := by
  have hact {a : Activation} (ha : a.Made Q) : a.Made Q' :=
    ⟨ha.self.mono hQ, fun v hv => (ha.locals v hv).mono hQ, fun v hv => (ha.temps v hv).mono hQ⟩
  exact ⟨fun i v hv => (h.globals i v hv).mono hQ, h.lastPopped.mono hQ, hact h.current,
    fun a ha => hact (h.callers a ha)⟩

theorem Made.withTemps (h : c.Made Q) {temps : List Value} (ht : ∀ v ∈ temps, v.Made Q) :
    (c.withTemps temps).Made Q :=
  ⟨h.globals, h.lastPopped, ⟨h.current.self, h.current.locals, ht⟩, h.callers⟩

theorem Made.withCode (h : c.Made Q) (code : List Piece) : (c.withCode code).Made Q :=
  ⟨h.globals, h.lastPopped, ⟨h.current.self, h.current.locals, h.current.temps⟩, h.callers⟩

theorem Made.drop (h : c.Made Q) (n : Nat) : ∀ v ∈ c.current.temps.drop n, v.Made Q :=
  fun v hv => h.current.temps v (List.mem_of_mem_drop hv)

theorem Made.take (h : c.Made Q) (n : Nat) : ∀ v ∈ (c.current.temps.take n).reverse, v.Made Q :=
  fun v hv => h.current.temps v (List.mem_of_mem_take (List.mem_reverse.mp hv))

theorem Made.uncons (h : c.Made Q) {v : Value} {temps : List Value}
    (ht : c.current.temps = v :: temps) : v.Made Q ∧ ∀ u ∈ temps, u.Made Q := by
  have hs := h.current.temps
  rw [ht] at hs
  exact List.forall_mem_cons.mp hs

theorem Made.push (h : c.Made Q) {v : Value} (hv : v.Made Q) : (c.push v).Made Q c.globals := by
  unfold Config.push
  split
  · exact ⟨h, rfl⟩
  · exact ⟨h.withTemps (List.forall_mem_cons.mpr ⟨hv, h.current.temps⟩), rfl⟩

theorem Made.pushNew (h : c.Made Q) {make : Nat → Value} (hv : ∀ id, (make id).Made Q) :
    (c.pushNew make).Made Q c.globals := by
  have hf : Made Q { c with fresh := c.fresh + 1 } :=
    ⟨h.globals, h.lastPopped, h.current, h.callers⟩
  exact hf.push (hv _)

theorem Made.pushResult (h : c.Made Q) {r : Except Stop Value}
    (hr : ∀ v, r = .ok v → v.Made Q) : (c.pushResult r).Made Q c.globals := by
  cases r with
  | ok v => exact h.push (hr v rfl)
  | error s => exact ⟨h, rfl⟩

theorem Made.pushFound (h : c.Made Q) {o : Option Value} (ho : ∀ v, o = some v → v.Made Q) :
    (c.pushFound o).Made Q c.globals := by
  cases o with
  | some v => exact h.push (ho v rfl)
  | none => trivial

theorem Made.binary (h : c.Made Q) {f : Value → Value → Except Stop Value}
    (hf : ∀ l r v, l.Made Q → f l r = .ok v → v.Made Q) : (c.binary f).Made Q c.globals := by
  unfold Config.binary
  split
  · rename_i right left temps ht
    obtain ⟨-, hrest⟩ := h.uncons ht
    obtain ⟨hleft, hrest⟩ := List.forall_mem_cons.mp hrest
    exact (h.withTemps hrest).pushResult fun v hv => hf left right v hleft hv
  · trivial

theorem Made.enter (h : c.Made Q) {callee : Value} (hcallee : callee.Made Q) {proto : Prototype}
    {args temps : List Value} (ha : ∀ v ∈ args, v.Made Q) (ht : ∀ v ∈ temps, v.Made Q) :
    (c.enter callee proto args temps).Made Q c.globals := by
  unfold Config.enter
  dsimp only
  split
  · exact ⟨h, rfl⟩
  split
  · exact ⟨h, rfl⟩
  split
  · exact ⟨h, rfl⟩
  split
  · trivial
  split
  · refine ⟨⟨h.globals, h.lastPopped, ⟨hcallee, fun v hv => ?_, List.forall_mem_nil _⟩, ?_⟩, rfl⟩
    · obtain hv | hv := List.mem_append.mp hv
      · exact ha v hv
      · rw [List.eq_of_mem_replicate hv]
        exact .null
    · exact List.forall_mem_cons.mpr ⟨⟨h.current.self, h.current.locals,
        List.forall_mem_cons.mpr ⟨hcallee, ht⟩⟩, h.callers⟩
  · trivial

theorem Made.callBuiltin (h : c.Made Q) (b : Builtin) {args temps : List Value}
    (ha : ∀ v ∈ args, v.Made Q) (ht : ∀ v ∈ temps, v.Made Q) :
    (c.callBuiltin b args temps).Made Q c.globals := by
  unfold Config.callBuiltin
  dsimp only
  cases hb : b.apply c.fresh args with
  | error f => exact ⟨⟨h.globals, h.lastPopped, h.current, h.callers⟩, rfl⟩
  | ok reply =>
    have hw : Made Q { c with fresh := c.fresh + 1, written := c.written ++ reply.written } :=
      ⟨h.globals, h.lastPopped, h.current, h.callers⟩
    exact (hw.withTemps ht).push (b.apply_made ha hb)

theorem Made.call (h : c.Made Q) (n : Nat) : (c.call n).Made Q c.globals := by
  unfold Config.call
  dsimp only
  split
  · trivial
  · rename_i callee temps hd
    have hs := h.drop n
    rw [hd] at hs
    obtain ⟨hcallee, ht⟩ := List.forall_mem_cons.mp hs
    split
    · exact h.enter hcallee (h.take n) ht
    · exact h.callBuiltin _ (h.take n) ht
    · exact ⟨h, rfl⟩

theorem Made.leave (h : c.Made Q) {v : Value} (hv : v.Made Q) :
    (c.leave v).Made Q c.globals := by
  unfold Config.leave
  split
  · trivial
  · rename_i caller callers hc
    have hs := h.callers
    rw [hc] at hs
    obtain ⟨hcaller, hrest⟩ := List.forall_mem_cons.mp hs
    split
    · trivial
    · rename_i callee temps ht
      have htemps := hcaller.temps
      rw [ht] at htemps
      have hback : Made Q { c with current := caller.withTemps temps, callers } :=
        ⟨h.globals, h.lastPopped,
          ⟨hcaller.self, hcaller.locals, (List.forall_mem_cons.mp htemps).2⟩, hrest⟩
      exact hback.push hv

theorem Made.makeHash (h : c.Made Q) (n : Nat) : (c.makeHash n).Made Q c.globals := by
  unfold Config.makeHash
  dsimp only
  split
  · cases he : Entries.ofValues [] (c.current.temps.take n).reverse with
    | error f => exact ⟨h, rfl⟩
    | ok entries =>
      exact (h.withTemps (h.drop n)).pushNew fun _ =>
        .hash (Entries.ofValues_made (List.forall_mem_nil _) (h.take n) he)
  · trivial

theorem Made.makeClosure (h : c.Made Q) {a n : Nat}
    (ha : ∀ proto, c.constants[a]? = some (.function proto) → Q proto) :
    (c.makeClosure a n).Made Q c.globals := by
  unfold Config.makeClosure
  dsimp only
  split
  · rename_i proto hp
    split
    · exact (h.withTemps (h.drop n)).pushNew fun _ => .closure (ha proto hp) (h.take n)
    · trivial
  · trivial

/-- An instruction that does not set a global. The values it brings in are constants, and what
closures are made of. -/
theorem Made.execute (h : c.Made Q) {op : Opcode} {a b : Nat} (hop : op ≠ .setGlobal)
    (hconst : op = .constant → ∀ v, c.constants[a]? = some v → v.Made Q)
    (hclosure : op = .closure → ∀ proto, c.constants[a]? = some (.function proto) → Q proto) :
    (c.execute op a b).Made Q c.globals := by
  cases op with
  | constant => exact h.pushFound (hconst rfl)
  | add | sub | mul | div => exact h.binary fun _ _ _ _ hv => Value.made_arithmetic hv
  | equal | notEqual | greaterThan => exact h.binary fun _ _ _ _ hv => Value.made_compare hv
  | index => exact h.binary fun _ _ _ hl hv => hl.index hv
  | pushTrue | pushFalse => exact h.push (.bool _)
  | pushNull => exact h.push .null
  | jump | jumpNotTruthy => trivial
  | setGlobal => exact absurd rfl hop
  | getGlobal => exact h.pushFound fun v hv => h.globals a v hv
  | getLocal => exact h.pushFound fun v hv => h.current.locals v (List.mem_of_getElem? hv)
  | getBuiltin =>
    refine h.pushFound fun v hv => ?_
    obtain ⟨b, -, rfl⟩ := Option.map_eq_some_iff.mp hv
    exact .builtin b
  | call => exact h.call a
  | hash => exact h.makeHash a
  | closure => exact h.makeClosure (hclosure rfl)
  | returnNull => exact h.leave .null
  | pop =>
    simp only [Config.execute]
    split
    · rename_i v temps ht
      obtain ⟨hv, hrest⟩ := h.uncons ht
      refine ⟨⟨h.globals, ?_, ⟨h.current.self, h.current.locals, hrest⟩, h.callers⟩, rfl⟩
      change (if c.callers.isEmpty then v else c.lastPopped).Made Q
      split
      · exact hv
      · exact h.lastPopped
    · trivial
  | bang =>
    simp only [Config.execute]
    split
    · exact (h.withTemps (h.uncons ‹_›).2).push (.bool _)
    · trivial
  | minus =>
    simp only [Config.execute]
    split
    · exact (h.withTemps (h.uncons ‹_›).2).pushResult fun v hv => Value.made_negate hv
    · trivial
  | setLocal =>
    simp only [Config.execute]
    split
    · rename_i v temps ht
      obtain ⟨hv, hrest⟩ := h.uncons ht
      split
      · refine ⟨⟨h.globals, h.lastPopped, ⟨h.current.self, fun u hu => ?_, hrest⟩, h.callers⟩, rfl⟩
        obtain hu | rfl := List.mem_or_eq_of_mem_set hu
        · exact h.current.locals u hu
        · exact hv
      · trivial
    · trivial
  | getFree =>
    simp only [Config.execute]
    split
    · rename_i id proto free hs
      have hself := h.current.self
      rw [hs] at hself
      cases hself with
      | closure _ hfree => exact h.pushFound fun v hv => hfree v (List.mem_of_getElem? hv)
    · trivial
  | currentClosure =>
    simp only [Config.execute]
    split
    · exact h.push h.current.self
    · trivial
  | returnValue =>
    simp only [Config.execute]
    split
    · exact h.leave (h.uncons ‹_›).1
    · trivial
  | array =>
    simp only [Config.execute]
    split
    · exact (h.withTemps (h.drop a)).pushNew fun _ => .array (h.take a)
    · trivial

theorem Made.setGlobal (h : c.Made Q) (a : Nat) {v : Value} (hv : v.Made Q) :
    (c.globals.set a v).Made Q := by
  intro i u hu
  rw [Slots.get?_set] at hu
  split at hu
  · cases hu
    exact hv
  · exact h.globals i u hu

/-- What setting a global does. -/
theorem execute_setGlobal_eq {a b : Nat} :
    c.execute .setGlobal a b = .stuck ∨
      ∃ v temps, c.current.temps = v :: temps ∧
        c.execute .setGlobal a b =
          .next (Config.withTemps { c with globals := c.globals.set a v } temps) := by
  simp only [Config.execute]
  split
  · split
    · exact .inr ⟨_, _, ‹_›, rfl⟩
    · exact .inl rfl
  · exact .inl rfl

/-- Code that is checked loads only constants without functions. -/
theorem Typed.made_constant {N : Int → Prop} (ht : c.Typed N) {i : Instruction}
    {rest : List Piece} (hcode : c.current.code = .ins i :: rest) (hop : i.op = .constant)
    {v : Value} (hv : c.constants[i.operands.getD 0 0]? = some v) : v.Made Q := by
  obtain ⟨e, hcheck, -⟩ := ht.current.code
  rw [hcode] at hcheck
  generalize c.current.temps.length = height at hcheck
  cases hcheck with
  | ins hu _ =>
    cases hu with
    | constant hv' hl =>
      rw [List.getD_cons_zero, hv'] at hv
      cases hv
      exact hl.made
    | binary hb | unary hb | nullary hb =>
      cases hop
      cases hb
    | _ => cases hop
  | closure => cases hop

end Config

end ClosureVM
